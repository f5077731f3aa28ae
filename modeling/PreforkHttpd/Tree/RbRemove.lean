import PreforkHttpd.Tree.RbRemoveColor
import PreforkHttpd.Tree.RbTraversal

/-!
# `RB_REMOVE`

An element without two children is taken out of its place, where its child goes. Otherwise its
successor is taken out, which has no left child, and then gets the place of the element with all its
fields, the colour included. `RB_REMOVE_COLOR` is called where the node that is gone from its place
was black.
-/

open LinkedTree RedBlack

namespace PreforkHttpd

namespace RbHead

variable {ι κ : Type} [DecidableEq ι]

/-! ### The code -/

/-- `child` goes to the place of `elm`. -/
def unlink (elm : ι) (child : Option ι) (h : RbHead ι κ) : Option (RbHead ι κ) := do
  let parent := (← h.nodes elm).parent
  let h ← h.setParentOf child parent
  h.replaceChild parent (some elm) child

/-- `(elm)->field = (old)->field`: all but the key. -/
def copyField (old elm : Node ι (Colored κ)) : Node ι (Colored κ) :=
  { old with data := { elm.data with color := old.data.color } }

/-- `elm` gets the fields of `old`, and the neighbours of `old` are told. -/
def replaceBy (old elm : ι) (h : RbHead ι κ) : Option (RbHead ι κ) := do
  let n ← h.nodes old
  let h ← h.assign elm (copyField n)
  let h ← h.replaceChild (← h.nodes old).parent (some old) (some elm)
  let h ← h.assign (← (← h.nodes old).left) (Node.setParent (some elm))
  h.setParentOf (← h.nodes old).right (some elm)

/-- The loop that calls `RB_AUGMENT` up to the root. -/
def augmentUp (h : RbHead ι κ) : ℕ → Option ι → Option Unit
  | 0, _ => none
  | _ + 1, none => some ()
  | fuel + 1, some left => (h.nodes left).bind fun n ↦ augmentUp h fuel n.parent

/-- `RB_REMOVE`. -/
def remove (fuel : ℕ) (elm : ι) (h : RbHead ι κ) : Option (RbHead ι κ) := do
  let n ← h.nodes elm
  match n.left, n.right with
  | some _, some right =>
    let old := elm
    let elm ← h.leftmost fuel right
    let e ← h.nodes elm
    let h ← h.unlink elm e.right
    let parent := if (← h.nodes elm).parent = some old then some elm else e.parent
    let h ← h.replaceBy old elm
    h.augmentUp fuel parent
    if e.data.color = .black then h.removeColor fuel parent e.right else some h
  | left, right =>
    let child := if left = none then right else left
    let h ← h.unlink elm child
    if n.data.color = .black then h.removeColor fuel n.parent child else some h

variable {h h₁ : RbHead ι κ} {t l r s : Colors ι κ} {c e : ι × Colored κ} {d : Side} {n m : ℕ}
  {fs gs : List (Frame ι (Colored κ))} {i : ι}

/-! ### Out of its place -/

/-- **An element with one child at most** leaves its place to this child. -/
theorem unlink_spec (hh : h.Holds (plug fs (branch d c .nil s))) :
    ∃ h', h.unlink c.1 (root s) = some h' ∧ h'.Holds (plug fs s) ∧
      ∀ i, i ∉ frameAddresses fs → i ∉ addresses s → h'.nodes i = h.nodes i := by
  obtain ⟨hframes, hplace⟩ := stored_plug.1 hh.stored
  obtain ⟨-, -, hs⟩ := stored_branch.1 hplace
  obtain ⟨hnodupfs, hnodup, hout⟩ := nodup_plug.1 hh.nodup
  obtain ⟨-, hcs, -, hnodups, -⟩ := nodup_branch.1 hnodup
  rw [root_branch] at hframes
  have hroot : ∀ i, i ∉ addresses s → root s ≠ some i := fun i hi heq ↦
    hi (mem_addresses_of_root heq)
  have hfs : ∀ i ∈ frameAddresses fs, i ∉ addresses s := fun i hi hmem ↦
    hout i hi (mem_addresses_branch.2 (Or.inr (Or.inr hmem)))
  obtain ⟨h₂, hrun, hframes₂, hroot₂, hkeep⟩ := replaceChild_spec
    { h with nodes := adopt h.nodes (root s) (above fs) } (q := root s) (root_branch (d := d)) hh
    (hframes.congr fun i hi ↦ adopt_of_ne (hroot i (hfs i hi))) rfl
  have hnode := hh.node fs
  refine ⟨h₂, ?_, ⟨hroot₂ s rfl, stored_plug.2 ⟨hframes₂, ?_⟩, ?_⟩, fun i hi hmem ↦ ?_⟩
  · simp only [unlink, hnode, parent_mkNode, Option.bind_eq_bind, Option.bind_some,
      setParentOf_eq hs, hrun]
  · exact (hs.adopt hnodups (above fs)).congr fun i hi ↦ hkeep i fun hmem ↦ hfs i hmem hi
  · exact nodup_plug.2 ⟨hnodupfs, hnodups, hfs⟩
  · exact (hkeep i hi).trans (adopt_of_ne (hroot i hmem))

/-- **Another element takes the place** of an element with a left child. -/
theorem replaceBy_spec {k : Node ι (Colored κ)} (hh : h.Holds (plug fs (.node c l r)))
    (hl : l ≠ .nil) (hk : h.nodes i = some k) (hi : i ∉ addresses (plug fs (.node c l r))) :
    ∃ h', h.replaceBy c.1 i = some h' ∧
      h'.Holds (plug fs (.node (i, ⟨c.2.color, k.data.key⟩) l r)) ∧ h'.nodes c.1 = h.nodes c.1 ∧
      ∀ j ≠ i, j ∉ addresses (plug fs (.node c l r)) → h'.nodes j = h.nodes j := by
  have hnode := hh.node (d := .right) fs
  obtain ⟨hframes, hc, hstoredl, hstoredr⟩ := stored_plug.1 hh.stored
  obtain ⟨hnodupfs, hnodup, hout⟩ := nodup_plug.1 hh.nodup
  obtain ⟨hcl, hcr, hnodupl, hnodupr, hlr⟩ := (nodup_branch (d := .right)).1 hnodup
  simp only [mem_addresses_plug, mem_addresses_node, not_or] at hi hout
  obtain ⟨hifs, hic, hil, hir⟩ := hi
  obtain ⟨h₂, hrun, hframes₂, hroot, hkeep⟩ := replaceChild_spec (t := .node c l r) { h with
      nodes := modify h.nodes i (copyField (mkNode .right (root l) (root r) (above fs) c.2)) }
    (q := some i) rfl hh (hframes.modify_of_notMem hifs _) rfl
  have hassign :=
    assign_of_some (g := copyField (mkNode .right (root l) (root r) (above fs) c.2)) hk
  have hcfs : c.1 ∉ frameAddresses fs := fun hj ↦ (hout _ hj).1 rfl
  have hc₁ := (modify_of_ne (f := copyField (mkNode .right (root l) (root r) (above fs) c.2))
    (Ne.symm hic)).trans hnode
  have hc₂ := (hkeep _ hcfs).trans hc₁
  have hi₂ := (hkeep _ hifs).trans (modify_eq_some hk _)
  have hl₂ : Stored h₂.nodes (some c.1) l := (hstoredl.modify_of_notMem hil _).congr fun j hj ↦
    hkeep j fun hfs ↦ (hout j hfs).2.1 hj
  have hr₂ : Stored h₂.nodes (some c.1) r := (hstoredr.modify_of_notMem hir _).congr fun j hj ↦
    hkeep j fun hfs ↦ (hout j hfs).2.2 hj
  -- the children get their new parent
  have hleft := setParentOf_eq hl₂ (some i)
  have hright := setParentOf_eq (h := { h₂ with nodes := adopt h₂.nodes (root l) (some i) })
    (hr₂.adopt_other hlr (some i)) (some i)
  have hroot_ne : ∀ {j} {s : Colors ι κ}, j ∉ addresses s → root s ≠ some j := fun hj heq ↦
    hj (mem_addresses_of_root heq)
  have hc₃ := (adopt_of_ne (p := some i) (hroot_ne hcl)).trans hc₂
  have hfar : ∀ j, j ∉ addresses l → j ∉ addresses r →
      adopt (adopt h₂.nodes (root l) (some i)) (root r) (some i) j = h₂.nodes j := fun j hjl hjr ↦
    (adopt_of_ne (hroot_ne hjr)).trans (adopt_of_ne (hroot_ne hjl))
  have hrl : ∀ j ∈ addresses r, j ∉ addresses l := fun j hj hmem ↦ hlr j hmem hj
  refine ⟨_, Eq.trans ?_ hright, ⟨?_, stored_plug.2 ⟨?_, ?_, ?_, ?_⟩, nodup_plug.2 ⟨hnodupfs,
    (nodup_branch (d := .right)).2 ⟨hil, hir, hnodupl, hnodupr, hlr⟩, fun j hj ↦ ?_⟩⟩, ?_,
    fun j hj hmem' ↦ ?_⟩
  · cases l with
    | nil => exact absurd rfl hl
    | node a ll lr =>
      simp only [replaceBy, hnode, Option.bind_eq_bind, Option.bind_some, hassign, hc₁,
        parent_mkNode, hrun, hc₂]
      refine (congrArg (Option.bind · _) hleft).trans ?_
      exact congrArg (Option.bind · _) hc₃
  · exact hroot _ rfl
  · exact (hframes₂.adopt_other (fun j hj hfs ↦ (hout j hfs).2.1 hj) _).adopt_other
      (fun j hj hfs ↦ (hout j hfs).2.2 hj) _
  · exact (hfar i hil hir).trans hi₂
  · exact (hl₂.adopt hnodupl _).adopt_other hrl _
  · exact (hr₂.adopt_other hlr _).adopt hnodupr _
  · rw [mem_addresses_node, not_or, not_or]
    exact ⟨fun heq ↦ hifs (by rwa [heq] at hj), (hout j hj).2⟩
  · exact (hfar _ hcl hcr).trans (hc₂.trans hnode.symm)
  · rw [mem_addresses_plug, mem_addresses_node, not_or, not_or, not_or] at hmem'
    exact (hfar j hmem'.2.2.1 hmem'.2.2.2).trans ((hkeep j hmem'.1).trans (modify_of_ne hj))

/-! ### The element is gone -/

/-- **The colours are repaired** where the node that is gone was black. -/
theorem repair_spec {fuel : ℕ} {col : Color} (hh : h.Holds (plug fs s))
    (hfs : FramesBalanced fs col n) (hplace : Balanced (branch d c .nil s) col n)
    (hfuel : fs.length < fuel) :
    ∃ h' t', (if c.2.color = .black then h.removeColor fuel (above fs) (root s) else some h) =
      some h' ∧ Rebuilt h (plug fs s) h' t' ∧ IsRedBlack t' := by
  obtain ⟨hc, rfl, -, hs⟩ | ⟨m, _, colS, hc, rfl, rfl, -, hs⟩ := balanced_branch_cases hplace
  · refine ⟨h, plug fs s, ?_, .refl hh, balanced_plug_iff.2 ⟨_, _, hfs.black_of_red, hs⟩⟩
    rw [hc, if_neg nofun]
  · rw [if_pos hc]
    exact removeColor_spec hh hs hfs hfuel

omit [DecidableEq ι] in
/-- The loop that calls `RB_AUGMENT` ends at the root. -/
theorem augmentUp_eq {fuel : ℕ} (hh : h.Holds (plug fs t)) (hfuel : fs.length < fuel) :
    h.augmentUp fuel (above fs) = some () := by
  induction fs generalizing t fuel with
  | nil =>
    obtain ⟨fuel, rfl⟩ : ∃ k, fuel = k + 1 := ⟨fuel - 1, by omega⟩
    rfl
  | cons f fs ih =>
    rw [List.length_cons] at hfuel
    obtain ⟨fuel, rfl⟩ : ∃ k, fuel = k + 1 := ⟨fuel - 1, by omega⟩
    rw [above_eq_of_cons, augmentUp, hh.node fs, Option.bind_some, parent_mkNode]
    exact ih hh (by omega)

/-- The code for an element with one child at most. -/
theorem remove_of_branch (fuel : ℕ) (hh : h.Holds (plug fs (branch d c .nil s))) :
    h.remove fuel c.1 = (h.unlink c.1 (root s)).bind fun h ↦
      if c.2.color = .black then h.removeColor fuel (above fs) (root s) else some h := by
  have hnode := hh.node fs
  cases d <;> cases s <;>
    simp only [remove, hnode, mkNode, root, Option.bind_eq_bind, Option.bind_some, if_true,
      reduceCtorEq, if_false]

/-- The code for an element with two children; `e` is its successor. -/
theorem remove_of_node (fuel : ℕ) {k : Node ι (Colored κ)} (hh : h.Holds (plug fs (.node c l r)))
    (hl : l ≠ .nil) (hr : r ≠ .nil)
    (hleftmost : ∀ i, root r = some i → h.leftmost fuel i = some e.1)
    (hk : h.nodes e.1 = some k) (hunlink : h.unlink e.1 k.right = some h₁)
    (hk₁ : h₁.nodes e.1 = some k) :
    h.remove fuel c.1 = (h₁.replaceBy c.1 e.1).bind fun h ↦
      (h.augmentUp fuel (if k.parent = some c.1 then some e.1 else k.parent)).bind fun _ ↦
        if k.data.color = .black then
          h.removeColor fuel (if k.parent = some c.1 then some e.1 else k.parent) k.right
        else some h := by
  have hnode := hh.node (d := .right) fs
  cases l with
  | nil => exact absurd rfl hl
  | node a ll lr =>
    cases r with
    | nil => exact absurd rfl hr
    | node b rl rr =>
      simp only [remove, hnode, mkNode, root, Option.bind_eq_bind, Option.bind_some,
        hleftmost b.1 rfl, hk, hunlink, hk₁]

/-- From a head that holds `t` the node `c` has been taken out: the others are as they are listed,
and the elements that are not in the tree, and the key of `c`, are as they were. -/
structure Taken (h : RbHead ι κ) (t : Colors ι κ) (c : ι × Colored κ) (h' : RbHead ι κ)
    (t' : Colors ι κ) : Prop where
  holds : h'.Holds t'
  red_black : IsRedBlack t'
  outside : ∀ j ∉ addresses t, h'.nodes j = h.nodes j
  exists_node : ∃ n, h'.nodes c.1 = some n ∧ n.data = c.2

/-- **An element with one child at most** is taken out. -/
theorem remove_branch {fuel : ℕ} (hh : h.Holds (plug fs (branch d c .nil s)))
    (hrb : IsRedBlack (plug fs (branch d c .nil s))) (hfuel : fs.length < fuel) :
    ∃ h' t', h.remove fuel c.1 = some h' ∧ Taken h (plug fs (branch d c .nil s)) c h' t' ∧
      entries t' = entries (plug fs s) := by
  obtain ⟨-, hnodup, hout⟩ := nodup_plug.1 hh.nodup
  obtain ⟨-, hcs, -⟩ := nodup_branch.1 hnodup
  obtain ⟨h₁, hunlink, hh₁, hkeep⟩ := unlink_spec hh
  obtain ⟨col, n, hfs, hplace⟩ := balanced_plug_iff.1 hrb
  obtain ⟨h', t', hrun, hrebuilt, hrb'⟩ := repair_spec hh₁ hfs hplace hfuel
  have hkeep' : ∀ j, j ∉ frameAddresses fs → j ∉ addresses s → h'.nodes j = h.nodes j :=
    fun j hjfs hjs ↦ (hrebuilt.outside j fun hmem ↦ (mem_addresses_plug.1 hmem).elim hjfs hjs).trans
      (hkeep j hjfs hjs)
  refine ⟨h', t', ?_, ⟨hrebuilt.holds, hrb', fun j hj ↦ ?_, ?_⟩, hrebuilt.entries_eq⟩
  · rw [remove_of_branch fuel hh, hunlink]
    exact hrun
  · simp only [mem_addresses_plug, mem_addresses_branch, not_or] at hj
    exact hkeep' j hj.1 hj.2.2.2
  · have hc : c.1 ∉ frameAddresses fs := fun hmem ↦
      hout _ hmem (mem_addresses_branch.2 (Or.inl rfl))
    exact ⟨_, (hkeep' _ hc hcs).trans (hh.node fs), data_mkNode _ _ _ _ _⟩

/-- **An element with two children** is taken out. -/
theorem remove_node {fuel : ℕ} (hh : h.Holds (plug fs (.node c l r)))
    (hrb : IsRedBlack (plug fs (.node c l r))) (hl : l ≠ .nil) (hr : r ≠ .nil)
    (hfuel : (inorder (plug fs (.node c l r))).length < fuel) :
    ∃ h' t', h.remove fuel c.1 = some h' ∧ Taken h (plug fs (.node c l r)) c h' t' ∧
      entries t' = (before fs ++ inorder l ++ (inorder r ++ after fs)).map
        fun c ↦ (c.1, c.2.key) := by
  obtain ⟨gs, e, s, rfl, hbefore, hinorder, hhead⟩ := exists_plug_of_head hr
  -- the successor is taken out of its place
  have hflip : ∀ (c : ι × Colored κ) (u : Colors ι κ), plug fs (.node c l (plug gs u)) =
      plug (gs ++ ⟨.right, c, l⟩ :: fs) u :=
    fun c u ↦ (plug_append gs (⟨.right, c, l⟩ :: fs) u).symm
  have hh' : h.Holds (plug (gs ++ ⟨.right, c, l⟩ :: fs) (branch .right e .nil s)) := by
    rw [← hflip]
    exact hh
  have hk := hh'.node (gs ++ ⟨.right, c, l⟩ :: fs)
  obtain ⟨hnodupfs, hnodup, hout⟩ := nodup_plug.1 hh'.nodup
  obtain ⟨-, hes, -⟩ := nodup_branch.1 hnodup
  have hefs : e.1 ∉ frameAddresses (gs ++ ⟨.right, c, l⟩ :: fs) := fun hmem ↦
    hout _ hmem (mem_addresses_branch.2 (Or.inl rfl))
  obtain ⟨h₁, hunlink, hh₁, hkeep₁⟩ := unlink_spec hh'
  have hk₁ := (hkeep₁ _ hefs hes).trans hk
  -- and then put in the place of the element
  rw [← hflip] at hh₁
  have hnew : e.1 ∉ addresses (plug fs (.node c l (plug gs s))) := by
    rw [hflip, mem_addresses_plug, not_or]
    exact ⟨hefs, hes⟩
  obtain ⟨h₂, hreplace, hh₂, hc₂, hkeep₂⟩ := replaceBy_spec hh₁ hl hk₁ hnew
  have hdata : (⟨c.2.color, (mkNode .right (root (.nil : Colors ι κ)) (root s)
      (above (gs ++ ⟨.right, c, l⟩ :: fs)) e.2).data.key⟩ : Colored κ) = ⟨c.2.color, e.2.key⟩ := rfl
  rw [hdata, hflip] at hh₂
  have hrb' : IsRedBlack (plug (gs ++ ⟨.right, c, l⟩ :: fs) (branch .right e .nil s)) := by
    rw [← hflip]
    exact hrb
  obtain ⟨col, n, hfs, hplace⟩ := balanced_plug_iff.1 hrb'
  have hlength := length_plug (gs ++ ⟨.right, c, l⟩ :: fs) (.node e .nil s)
  rw [← hflip, List.length_append, List.length_cons] at hlength
  have hdepth : (gs ++ ⟨.right, (e.1, ⟨c.2.color, e.2.key⟩), l⟩ :: fs).length < fuel := by
    rw [List.length_append, List.length_cons]
    omega
  have hfs' : FramesBalanced (gs ++ ⟨.right, (e.1, ⟨c.2.color, e.2.key⟩), l⟩ :: fs) col n :=
    hfs.replace rfl
  obtain ⟨h', t', hrun, hrebuilt, hrb''⟩ := repair_spec hh₂ hfs' hplace hdepth
  have hparent : (if above (gs ++ ⟨.right, c, l⟩ :: fs) = some c.1 then some e.1
      else above (gs ++ ⟨.right, c, l⟩ :: fs)) =
      above (gs ++ ⟨.right, (e.1, ⟨c.2.color, e.2.key⟩), l⟩ :: fs) := by
    cases gs with
    | nil => exact if_pos rfl
    | cons g gs =>
      refine if_neg fun heq ↦ ?_
      have hmem : c.1 ∈ frameAddresses (gs ++ ⟨.right, c, l⟩ :: fs) := by
        simp [frameAddresses]
      have hgc : g.node.1 = c.1 := Option.some.inj heq
      have hnotMem : g.node.1 ∉ _ := (List.nodup_cons.1 hnodupfs).1
      exact hnotMem (List.mem_append_right _ (hgc ▸ hmem))
  have haugment := augmentUp_eq hh₂ hdepth
  have hfinal : ∀ j, j ∉ frameAddresses fs → j ≠ e.1 → j ∉ addresses l →
      j ∉ addresses (plug gs s) → h'.nodes j = h₂.nodes j := fun j hfs he hl hs ↦ by
    refine hrebuilt.outside j ?_
    rw [← hflip, mem_addresses_plug, mem_addresses_node, not_or, not_or, not_or]
    exact ⟨hfs, he, hl, hs⟩
  refine ⟨h', t', ?_, ⟨hrebuilt.holds, hrb'', fun j hj ↦ ?_, ?_⟩, ?_⟩
  · have hleftmost : ∀ i, root (plug gs (.node e .nil s)) = some i →
        h.leftmost fuel i = some e.1 := fun i hi ↦ by
      have hright := (stored_plug.1 hh.stored).2.2.2
      have hheight := height_le_length (plug gs (.node e .nil s))
      have hsize := length_plug fs (.node c l (plug gs (.node e .nil s)))
      rw [inorder, List.length_append, List.length_cons] at hsize
      rw [leftmost_eq hright hi (by omega), hhead]
      rfl
    rw [remove_of_node fuel hh hl hr hleftmost hk hunlink hk₁, hreplace, Option.bind_some,
      parent_mkNode, hparent, haugment, Option.bind_some]
    exact hrun
  · simp only [mem_addresses_plug, mem_addresses_node, not_or] at hj hfinal
    obtain ⟨hjfs, hjc, hjl, hjgs, hje, -, hjs⟩ := hj
    refine (hfinal j hjfs hje hjl ⟨hjgs, hjs⟩).trans ((hkeep₂ j hje ?_).trans (hkeep₁ j ?_ hjs))
    · simp only [mem_addresses_plug, mem_addresses_node, not_or]
      exact ⟨hjfs, hjc, hjl, hjgs, hjs⟩
    · rw [frameAddresses, List.flatMap_append, List.mem_append, not_or]
      refine ⟨hjgs, fun hmem ↦ ?_⟩
      obtain hmem | hmem | hmem := mem_frameAddresses_cons.1 hmem
      · exact hjc hmem
      · exact hjl hmem
      · exact hjfs hmem
  · obtain ⟨-, hplacec, houtc⟩ := nodup_plug.1 hh.nodup
    obtain ⟨hcl, hcr, -⟩ := (nodup_branch (d := .right)).1 hplacec
    simp only [mem_addresses_plug, mem_addresses_node, not_or] at hcr hfinal
    have hcfs : c.1 ∉ frameAddresses fs := fun hmem ↦
      houtc _ hmem (mem_addresses_node.2 (Or.inl rfl))
    refine ⟨_, (hfinal _ hcfs hcr.2.1 hcl ⟨hcr.1, hcr.2.2.2⟩).trans (hc₂.trans
      (hh₁.node (d := .right) fs)), data_mkNode _ _ _ _ _⟩
  · rw [hrebuilt.entries_eq, ← hflip, hinorder]
    simp [entries, inorder_plug, inorder, hbefore]

variable [LinearOrder κ]

/-- **`RB_REMOVE`** takes an element out of the list of entries. -/
theorem remove_spec {es₁ es₂ : List (ι × κ)} {k : κ} {fuel : ℕ}
    (hes : h.Represents (es₁ ++ (i, k) :: es₂)) (hfuel : (es₁ ++ (i, k) :: es₂).length < fuel) :
    ∃ h', h.remove fuel i = some h' ∧ h'.Represents (es₁ ++ es₂) ∧
      (∀ j ∉ (es₁ ++ (i, k) :: es₂).map Prod.fst, h'.nodes j = h.nodes j) ∧
      ∃ n, h'.nodes i = some n ∧ n.data.key = k := by
  obtain ⟨t, hh, hrb, hordered, hentries⟩ := hes
  obtain ⟨xs, ys, hinorder, rfl, hys⟩ := List.map_eq_append_iff.1 hentries
  obtain ⟨c, ys, rfl, hc, rfl⟩ := List.map_eq_cons_iff.1 hys
  obtain ⟨fs, l, r, rfl, rfl, rfl⟩ := exists_plug_of_inorder_eq hinorder
  obtain rfl : c.1 = i := congrArg Prod.fst hc
  obtain rfl : c.2.key = k := congrArg Prod.snd hc
  have hlength : (inorder (plug fs (.node c l r))).length < fuel := by
    rwa [← hentries, entries, List.length_map] at hfuel
  have hdepth : fs.length < fuel := by
    have hplug := length_plug fs (.node c l r)
    omega
  rw [← hentries, ← addresses_eq_map_entries]
  obtain ⟨h', t', hrun, htaken, hentries'⟩ : ∃ h' t', h.remove fuel c.1 = some h' ∧
      Taken h (plug fs (.node c l r)) c h' t' ∧
        entries t' = (before fs ++ inorder l ++ (inorder r ++ after fs)).map
          fun c ↦ (c.1, c.2.key) := by
    by_cases hl : l = .nil
    · subst hl
      obtain ⟨h', t', hrun, htaken, hentries'⟩ := remove_branch (d := .right) hh hrb hdepth
      exact ⟨h', t', hrun, htaken, by rw [hentries']; simp [entries, inorder_plug, inorder]⟩
    · by_cases hr : r = .nil
      · subst hr
        obtain ⟨h', t', hrun, htaken, hentries'⟩ := remove_branch (d := .left) hh hrb hdepth
        exact ⟨h', t', hrun, htaken, by rw [hentries']; simp [entries, inorder_plug, inorder]⟩
      · exact remove_node hh hrb hl hr hlength
  have hordered' : Ordered Colored.key t' := by
    rw [ordered_iff_entries] at hordered ⊢
    refine hordered.sublist ?_
    rw [hentries', entries, hinorder]
    exact ((List.sublist_cons_self _ _).append_left _).map _
  refine ⟨h', hrun, ⟨t', htaken.holds, htaken.red_black, hordered', ?_⟩, htaken.outside, ?_⟩
  · rw [hentries', List.map_append]
  · obtain ⟨n, hn, hdata⟩ := htaken.exists_node
    exact ⟨n, hn, congrArg Colored.key hdata⟩

end RbHead

end PreforkHttpd
