import PreforkHttpd.Tree.RbInsert

/-!
# `RB_FIND`, `RB_MINMAX`, `RB_NEXT` and `RB_FOREACH`

What reads a red-black tree and changes nothing. `RB_FIND` goes down by the comparison function,
`RB_MINMAX` along one side, and `RB_NEXT` down the right subtree or up along the parent fields, so
that `RB_FOREACH` visits the elements in the order of their keys.

All of them are specified by the list of entries that the head represents.
-/

open LinkedTree RedBlack

namespace PreforkHttpd

namespace RbHead

variable {ι κ : Type} [DecidableEq ι]

/-! ### The code -/

/-- The loop of `RB_FIND`. -/
def findLoop (cmp : κ → κ → ℤ) (elm : ι) (h : RbHead ι κ) : ℕ → Option ι → Option (Option ι)
  | 0, _ => none
  | _ + 1, none => some none
  | fuel + 1, some tmp => do
    let n ← h.nodes tmp
    let comp := cmp (← h.nodes elm).data.key n.data.key
    if comp < 0 then findLoop cmp elm h fuel n.left
    else if 0 < comp then findLoop cmp elm h fuel n.right
    else some (some tmp)

/-- `RB_FIND`. -/
def find (cmp : κ → κ → ℤ) (fuel : ℕ) (elm : ι) (h : RbHead ι κ) : Option (Option ι) :=
  findLoop cmp elm h fuel h.rbhRoot

/-- The loop of `RB_MINMAX`. -/
def minmaxLoop (d : Side) (h : RbHead ι κ) : ℕ → Option ι → Option ι → Option (Option ι)
  | 0, _, _ => none
  | _ + 1, none, parent => some parent
  | fuel + 1, some tmp, _ => (h.nodes tmp).bind fun n ↦ minmaxLoop d h fuel (n.child d) (some tmp)

/-- `RB_MINMAX`. -/
def minmax (fuel : ℕ) (val : ℤ) (h : RbHead ι κ) : Option (Option ι) :=
  minmaxLoop (if val < 0 then .left else .right) h fuel h.rbhRoot none

/-- `while (RB_LEFT(elm, field)) elm = RB_LEFT(elm, field);`. -/
def leftmost (h : RbHead ι κ) : ℕ → ι → Option ι
  | 0, _ => none
  | fuel + 1, elm => do
    match (← h.nodes elm).left with
    | some left => leftmost h fuel left
    | none => some elm

/-- `parent && elm == RB_LEFT(parent, field)`, or the same of the right child. -/
def isChild (d : Side) (elm : ι) (parent : Option ι) (h : RbHead ι κ) : Option Bool :=
  match parent with
  | none => some false
  | some p => (h.nodes p).map fun n ↦ some elm = n.child d

/-- `while (parent && elm == RB_RIGHT(parent, field)) elm = parent;`, and the parent of the last
element. -/
def climb (h : RbHead ι κ) : ℕ → ι → Option (Option ι)
  | 0, _ => none
  | fuel + 1, elm => do
    let parent := (← h.nodes elm).parent
    if ← h.isChild .right elm parent then climb h fuel (← parent) else some parent

/-- `RB_NEXT`. -/
def next (fuel : ℕ) (elm : ι) (h : RbHead ι κ) : Option (Option ι) := do
  let n ← h.nodes elm
  match n.right with
  | some right => (h.leftmost fuel right).map some
  | none => if ← h.isChild .left elm n.parent then some n.parent else h.climb fuel elm

/-- The elements that the loop of `RB_FOREACH` visits. -/
def visits (fuel : ℕ) (h : RbHead ι κ) : ℕ → Option ι → Option (List ι)
  | 0, _ => none
  | _ + 1, none => some []
  | rounds + 1, some x => do
    let rest ← visits fuel h rounds (← h.next fuel x)
    some (x :: rest)

/-- `RB_FOREACH`. -/
def forEach (fuel : ℕ) (h : RbHead ι κ) : Option (List ι) := do
  visits fuel h fuel (← h.minmax fuel (-1))

variable {h : RbHead ι κ} {t l r : Colors ι κ} {c : ι × Colored κ} {d : Side} {fuel : ℕ}
  {fs : List (Frame ι (Colored κ))} {p q : Option ι} {i : ι}

/-! ### Going down -/

omit [DecidableEq ι] in
/-- **The leftmost node** is the first one. -/
theorem leftmost_eq (ht : Stored h.nodes p t) (hi : root t = some i) (hfuel : height t ≤ fuel) :
    h.leftmost fuel i = (inorder t).head?.map Prod.fst := by
  induction t generalizing p i fuel with
  | nil => cases hi
  | node c l r ihl _ =>
    obtain rfl : c.1 = i := Option.some.inj hi
    rw [height] at hfuel
    obtain ⟨fuel, rfl⟩ : ∃ k, fuel = k + 1 := ⟨fuel - 1, by omega⟩
    have hhead : (inorder (.node c l r)).head? = (inorder l).head?.or (some c) := by
      rw [inorder, List.head?_append, List.head?_cons]
    rw [hhead, leftmost, ht.1]
    cases l with
    | nil => rfl
    | node a ll lr =>
      have hih := ihl ht.2.1 rfl (by omega : height (.node a ll lr) ≤ fuel)
      obtain ⟨e, he⟩ := exists_head_inorder a ll lr
      rw [he] at hih ⊢
      exact hih

/-- The first or the last element. -/
def outer (d : Side) (l : List (ι × Colored κ)) : Option (ι × Colored κ) :=
  match d with
  | .left => l.head?
  | .right => l.getLast?

omit [DecidableEq ι] in
theorem minmaxLoop_eq (ht : Stored h.nodes p t) (q : Option ι) (hfuel : height t < fuel) :
    minmaxLoop d h fuel (root t) q = some (((outer d (inorder t)).map Prod.fst).or q) := by
  induction t generalizing p q fuel with
  | nil =>
    obtain ⟨fuel, rfl⟩ : ∃ k, fuel = k + 1 := ⟨fuel - 1, by omega⟩
    cases d <;> rfl
  | node c l r ihl ihr =>
    rw [height] at hfuel
    obtain ⟨fuel, rfl⟩ : ∃ k, fuel = k + 1 := ⟨fuel - 1, by omega⟩
    rw [root, minmaxLoop, ht.1, Option.bind_some]
    cases d with
    | left =>
      refine (ihl ht.2.1 (some c.1) (by omega)).trans ?_
      simp only [outer, inorder, List.head?_append, List.head?_cons]
      cases (inorder l).head? <;> rfl
    | right =>
      refine (ihr ht.2.2 (some c.1) (by omega)).trans ?_
      simp only [outer, inorder, List.getLast?_append, List.getLast?_cons]
      cases (inorder r).getLast? <;> rfl

/-! ### Going up -/

omit [DecidableEq ι] in
theorem above_eq_of_cons (f : Frame ι (Colored κ)) : above (f :: fs) = some f.node.1 := rfl

theorem isChild_cons {f : Frame ι (Colored κ)} (hh : h.Holds (plug (f :: fs) t))
    (hi : root t = some i) : h.isChild d i (above (f :: fs)) = some (decide (f.side = d)) := by
  have hparent : h.nodes f.node.1 = some (mkNode f.side (root f.sibling) (some i) (above fs)
      f.node.2) := hi ▸ hh.node fs
  have hne := root_sibling_ne fs hh hi
  rw [above_eq_of_cons, isChild, hparent, Option.map_some]
  cases f.side <;> cases d <;> simp [mkNode, Node.child, hne.symm]

omit [DecidableEq ι] in
/-- The parent field of the root of a subtree. -/
theorem exists_parent_eq (hh : h.Holds (plug fs t)) (hi : root t = some i) :
    ∃ n, h.nodes i = some n ∧ n.parent = above fs := by
  cases t with
  | nil => cases hi
  | node c l r =>
    obtain rfl : c.1 = i := Option.some.inj hi
    exact ⟨_, hh.node (d := .right) fs, parent_mkNode _ _ _ _ _⟩

/-- **Climbing** leads to the first node on the right. -/
theorem climb_eq (hh : h.Holds (plug fs t)) (hi : root t = some i) (hfuel : fs.length < fuel) :
    h.climb fuel i = some ((after fs).head?.map Prod.fst) := by
  induction fs generalizing t i fuel with
  | nil =>
    obtain ⟨fuel, rfl⟩ : ∃ k, fuel = k + 1 := ⟨fuel - 1, by omega⟩
    obtain ⟨n, hn, hparent⟩ := exists_parent_eq hh hi
    simp only [climb, hn, hparent, above, List.head?_nil, Option.map_none, isChild,
      Option.bind_eq_bind, Option.bind_some, Bool.false_eq_true, if_false, after]
  | cons f fs ih =>
    rw [List.length_cons] at hfuel
    obtain ⟨fuel, rfl⟩ : ∃ k, fuel = k + 1 := ⟨fuel - 1, by omega⟩
    obtain ⟨n, hn, hparent⟩ := exists_parent_eq hh hi
    have hchild := isChild_cons (d := .right) hh hi
    simp only [climb, hn, hparent, hchild, Option.bind_eq_bind, Option.bind_some,
      decide_eq_true_eq]
    split
    · -- the parent is on the left
      rw [above_eq_of_cons, Option.bind_some, after, ‹f.side = .right›, List.nil_append]
      exact ih hh root_branch (by omega)
    · have hside : f.side = .left := by
        cases hf : f.side
        · rfl
        · exact absurd hf ‹_›
      rw [above_eq_of_cons, after, hside]
      rfl

/-- **`RB_NEXT`** of a node is the first one on its right. -/
theorem next_of_plug (hh : h.Holds (plug fs (.node c l r))) (hr : height r ≤ fuel)
    (hfuel : fs.length < fuel) :
    h.next fuel c.1 = some ((inorder r ++ after fs).head?.map Prod.fst) := by
  have hnode := hh.node (d := .right) fs
  cases r with
  | nil =>
    have hclimb := climb_eq hh rfl hfuel
    simp only [next, hnode, mkNode, root, Option.bind_eq_bind, Option.bind_some, inorder,
      List.nil_append]
    cases fs with
    | nil => exact hclimb
    | cons f fs =>
      rw [isChild_cons hh rfl, Option.bind_some]
      cases hside : f.side with
      | left =>
        rw [after, hside]
        rfl
      | right => exact hclimb
  | node a rl rr =>
    obtain ⟨-, hright⟩ := (stored_branch (d := .right)).1 (stored_plug.1 hh.stored).2 |>.2
    obtain ⟨e, he⟩ := exists_head_inorder a rl rr
    have hleft := leftmost_eq hright rfl hr
    rw [he] at hleft
    rw [List.head?_append, he, next, hnode]
    exact congrArg (Option.map some) hleft

/-! ### The list of entries -/

section Entries

variable {es es₁ es₂ : List (ι × κ)} {k : κ}

omit [DecidableEq ι] in
theorem height_lt_of_length_lt (hfuel : (entries t).length < fuel) : height t < fuel := by
  refine (height_le_length t).trans_lt ?_
  rwa [entries, List.length_map] at hfuel

variable [LinearOrder κ]

omit [DecidableEq ι] in
/-- **`RB_MIN` and `RB_MAX`** are the ends of the list. -/
theorem minmax_spec (hes : h.Represents es) (hfuel : es.length < fuel) :
    h.minmax fuel (-1) = some (es.head?.map Prod.fst) ∧
      h.minmax fuel 1 = some (es.getLast?.map Prod.fst) := by
  obtain ⟨t, hh, -, -, rfl⟩ := hes
  have hheight := height_lt_of_length_lt hfuel
  constructor
  · rw [minmax, hh.root_eq, if_pos (by decide), minmaxLoop_eq hh.stored none hheight,
      Option.or_none, outer, entries, List.head?_map, Option.map_map]
    rfl
  · rw [minmax, hh.root_eq, if_neg (by decide), minmaxLoop_eq hh.stored none hheight,
      Option.or_none, outer, entries, List.getLast?_map, Option.map_map]
    rfl

/-- **`RB_NEXT`** goes through the list. -/
theorem next_spec (hes : h.Represents (es₁ ++ (i, k) :: es₂))
    (hfuel : (es₁ ++ (i, k) :: es₂).length < fuel) :
    h.next fuel i = some (es₂.head?.map Prod.fst) := by
  obtain ⟨t, hh, -, -, hentries⟩ := hes
  obtain ⟨xs, ys, hinorder, -, hys⟩ := List.map_eq_append_iff.1 hentries
  obtain ⟨c, ys, rfl, hc, rfl⟩ := List.map_eq_cons_iff.1 hys
  obtain ⟨fs, l, r, rfl, -, rfl⟩ := exists_plug_of_inorder_eq hinorder
  obtain rfl : c.1 = i := congrArg Prod.fst hc
  have hlength : (inorder (plug fs (.node c l r))).length < fuel := by
    rwa [← hentries, entries, List.length_map] at hfuel
  have hplug := length_plug fs (.node c l r)
  have hr := height_le_length r
  rw [inorder, List.length_append, List.length_cons] at hplug
  rw [next_of_plug hh (by omega) (by omega), List.head?_map, Option.map_map]
  rfl

/-- The rest of the loop visits the rest of the list. -/
theorem visits_eq (es₁ : List (ι × κ)) (hes : h.Represents (es₁ ++ es₂))
    (hfuel : (es₁ ++ es₂).length < fuel) {rounds : ℕ} (hrounds : es₂.length < rounds) :
    visits fuel h rounds (es₂.head?.map Prod.fst) = some (es₂.map Prod.fst) := by
  induction es₂ generalizing es₁ rounds with
  | nil =>
    obtain ⟨rounds, rfl⟩ : ∃ k, rounds = k + 1 := ⟨rounds - 1, by omega⟩
    rfl
  | cons e es₂ ih =>
    rw [List.length_cons] at hrounds
    obtain ⟨rounds, rfl⟩ : ∃ k, rounds = k + 1 := ⟨rounds - 1, by omega⟩
    have hnext := next_spec hes hfuel
    have hrest := ih (es₁ ++ [e]) (by rwa [List.append_cons] at hes)
      (by rwa [List.append_cons] at hfuel) (Nat.lt_of_succ_lt_succ hrounds)
    simp only [List.head?_cons, Option.map_some, visits, hnext, hrest, Option.bind_eq_bind,
      Option.bind_some, List.map_cons]

/-- **`RB_FOREACH`** visits every element once, in the order of the keys. -/
theorem forEach_spec (hes : h.Represents es) (hfuel : es.length < fuel) :
    h.forEach fuel = some (es.map Prod.fst) := by
  rw [forEach, (minmax_spec hes hfuel).1]
  exact visits_eq [] hes hfuel hfuel

variable {cmp : κ → κ → ℤ} {elm : ι} {node : Node ι (Colored κ)}

omit [DecidableEq ι] in
/-- **The loop of `RB_FIND`** ends where the search for the key does. -/
theorem findLoop_eq (hcmp : Compares cmp) (ht : Stored h.nodes p t) (helm : h.nodes elm = some node)
    (hfuel : height t < fuel) (fs : List (Frame ι (Colored κ))) :
    findLoop cmp elm h fuel (root t) = some (root (seek Colored.key node.data.key t fs).2) := by
  induction t generalizing fs p fuel with
  | nil =>
    obtain ⟨fuel, rfl⟩ : ∃ k, fuel = k + 1 := ⟨fuel - 1, by omega⟩
    rfl
  | node c l r ihl ihr =>
    rw [height] at hfuel
    obtain ⟨fuel, rfl⟩ : ∃ k, fuel = k + 1 := ⟨fuel - 1, by omega⟩
    simp only [root, findLoop, ht.1, helm, Option.bind_eq_bind, Option.bind_some, mkNode, seek,
      hcmp.neg_iff, hcmp.pos_iff]
    split
    · exact ihl ht.2.1 (by omega) _
    · split
      · exact ihr ht.2.2 (by omega) _
      · rfl

omit [DecidableEq ι] in
/-- In an ordered list no two entries have the same key. -/
theorem find?_eq_some (hsorted : es.Pairwise fun a b ↦ a.2 < b.2) (hmem : (i, k) ∈ es) :
    es.find? (fun e ↦ e.2 = k) = some (i, k) := by
  induction es with
  | nil => cases hmem
  | cons e es ih =>
    obtain ⟨he, hsorted⟩ := List.pairwise_cons.1 hsorted
    obtain rfl | hmem := List.mem_cons.1 hmem
    · exact List.find?_cons_of_pos (decide_eq_true rfl)
    · rw [List.find?_cons_of_neg (by simpa using (he _ hmem).ne)]
      exact ih hsorted hmem

omit [DecidableEq ι] in
/-- **`RB_FIND`** finds the element with the key. -/
theorem find_spec (hcmp : Compares cmp) (hes : h.Represents es) (helm : h.nodes elm = some node)
    (hfuel : es.length < fuel) :
    h.find cmp fuel elm = some ((es.find? fun e ↦ e.2 = node.data.key).map Prod.fst) := by
  obtain ⟨t, hh, -, hordered, rfl⟩ := hes
  rw [find, hh.root_eq, findLoop_eq hcmp hh.stored helm (height_lt_of_length_lt hfuel) []]
  have hplug : plug _ (seek Colored.key node.data.key t []).2 = t := plug_seek _ _ _ []
  have hbetween : Between Colored.key node.data.key (seek Colored.key node.data.key t []).1 :=
    between_seek ⟨nofun, nofun⟩ hordered
  cases hseek : (seek Colored.key node.data.key t []).2 with
  | nil =>
    rw [hseek] at hplug
    have hnone : (entries t).find? (fun e ↦ e.2 = node.data.key) = none := by
      rw [List.find?_eq_none]
      intro e he
      obtain ⟨c, hc, rfl⟩ := List.mem_map.1 he
      simpa using hbetween.key_ne c (by rwa [hplug])
    rw [hnone]
    rfl
  | node c l r =>
    rw [hseek] at hplug
    have hmem : (c.1, node.data.key) ∈ entries t := by
      refine List.mem_map.2 ⟨c, ?_, by rw [key_eq_of_seek hseek]⟩
      rw [← hplug, inorder_plug]
      simp [inorder]
    rw [find?_eq_some (ordered_iff_entries.1 hordered) hmem]
    rfl

end Entries

end RbHead

end PreforkHttpd
