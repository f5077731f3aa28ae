import PreforkHttpd.Tree.RbRuns
import PreforkHttpd.Tree.Splay

/-!
# Runs of the splay tree

What the splay macros of `tree.h` are for is what the red-black macros are for, a set of elements
with keys that are in order, and their uses are the same. Two of them mean something else here:
`SPLAY_INSERT` does not say whether it has put the element in, and `SPLAY_REMOVE` takes out whatever
has the key of the element that it is given. Every one of them, a search as well, changes the tree.

After any run of the macros that puts in no element which is in, and asks for no successor of an
element which is not, the code has given the same answers as the list.
-/

open LinkedTree LabelledRun

namespace PreforkHttpd

namespace SplayHead

open RbHead (RbCall Compares dropWhile_of_nodup find?_eq_some orderedInsert_of_split)

variable {ι κ : Type} [DecidableEq ι]

/-! ### The code -/

/-- `SPLAY_INIT`. -/
def init (h : SplayHead ι κ) : SplayHead ι κ := { h with sphRoot := none }

/-- `elm` goes above the root, with the root's subtree on side `d`. -/
def hang (d : Side) (elm root : ι) (h : SplayHead ι κ) : Option (SplayHead ι κ) := do
  let n ← h.nodes root
  let h ← h.assign elm d (n.child d)
  let h ← h.assign elm d.other (some root)
  let h ← h.assign root d none
  some { h with sphRoot := some elm }

/-- `SPLAY_INSERT`. -/
def insert (cmp : κ → κ → ℤ) (fuel : ℕ) (elm : ι) (h : SplayHead ι κ) :
    Option (SplayHead ι κ) :=
  match h.sphRoot with
  | none => do
    let h ← h.assign elm .right none
    let h ← h.assign elm .left none
    some { h with sphRoot := some elm }
  | some _ => do
    let e ← h.nodes elm
    let h ← h.splay (cmp e.data) fuel
    let root ← h.sphRoot
    let n ← h.nodes root
    let comp := cmp e.data n.data
    if comp < 0 then h.hang .left elm root
    else if 0 < comp then h.hang .right elm root
    else some h

/-- `SPLAY_REMOVE`. -/
def remove (cmp : κ → κ → ℤ) (fuel : ℕ) (elm : ι) (h : SplayHead ι κ) :
    Option (SplayHead ι κ) :=
  match h.sphRoot with
  | none => some h
  | some _ => do
    let e ← h.nodes elm
    let h ← h.splay (cmp e.data) fuel
    let n ← h.nodes (← h.sphRoot)
    if cmp e.data n.data = 0 then
      match n.left with
      | none => some { h with sphRoot := n.right }
      | some l => do
        let h ← splay (cmp e.data) fuel { h with sphRoot := some l }
        h.assign (← h.sphRoot) .right n.right
    else some h

/-- `SPLAY_FIND`. -/
def find (cmp : κ → κ → ℤ) (fuel : ℕ) (elm : ι) (h : SplayHead ι κ) :
    Option (Option ι × SplayHead ι κ) :=
  match h.sphRoot with
  | none => some (none, h)
  | some _ => do
    let e ← h.nodes elm
    let h ← h.splay (cmp e.data) fuel
    let root ← h.sphRoot
    let n ← h.nodes root
    some (if cmp e.data n.data = 0 then some root else none, h)

/-- `while (SPLAY_LEFT(elm, field) != NULL) elm = SPLAY_LEFT(elm, field);` -/
def leftmost (h : SplayHead ι κ) : ℕ → ι → Option ι
  | 0, _ => none
  | fuel + 1, elm => do
    match (← h.nodes elm).left with
    | some l => leftmost h fuel l
    | none => some elm

/-- `SPLAY_NEXT`. -/
def next (cmp : κ → κ → ℤ) (fuel : ℕ) (elm : ι) (h : SplayHead ι κ) :
    Option (Option ι × SplayHead ι κ) := do
  let e ← h.nodes elm
  let h ← h.splay (cmp e.data) fuel
  match (← h.nodes elm).right with
  | some r => (h.leftmost fuel r).map fun i ↦ (some i, h)
  | none => some (none, h)

/-- `SPLAY_MIN` and `SPLAY_MAX`: without elements null, else `SPLAY_MIN_MAX`. -/
def minmax (fuel : ℕ) (val : ℤ) (h : SplayHead ι κ) : Option (Option ι × SplayHead ι κ) :=
  match h.sphRoot with
  | none => some (none, h)
  | some _ => (h.splay (fun _ ↦ val) fuel).map fun h ↦ (h.sphRoot, h)

/-- The elements that the loop of `SPLAY_FOREACH` visits. -/
def visits (cmp : κ → κ → ℤ) (fuel : ℕ) :
    ℕ → Option ι → SplayHead ι κ → Option (List ι × SplayHead ι κ)
  | 0, _, _ => none
  | _ + 1, none, h => some ([], h)
  | rounds + 1, some x, h => do
    let (y, h) ← h.next cmp fuel x
    let (rest, h) ← visits cmp fuel rounds y h
    some (x :: rest, h)

/-- `SPLAY_FOREACH`. -/
def forEach (cmp : κ → κ → ℤ) (fuel : ℕ) (h : SplayHead ι κ) : Option (List ι × SplayHead ι κ) := do
  let (x, h) ← h.minmax fuel (-1)
  visits cmp fuel fuel x h

/-- The code of a macro: what it returns, and the head afterwards. -/
def call (cmp : κ → κ → ℤ) (fuel : ℕ) (h : SplayHead ι κ) :
    RbCall ι → Option (Option ι × SplayHead ι κ)
  | .insert elm => (h.insert cmp fuel elm).map fun h ↦ (none, h)
  | .remove elm => (h.remove cmp fuel elm).map fun h ↦ (none, h)
  | .find elm => h.find cmp fuel elm
  | .next elm => h.next cmp fuel elm
  | .min => h.minmax fuel (-1)
  | .max => h.minmax fuel 1

/-! ### What the macros do -/

section Answers

variable [LinearOrder κ]

/-- What a use of a macro means for the entries, when each element has its key. -/
def answer (keys : ι → Option κ) (es : List (ι × κ)) : RbCall ι → Option (Option ι × List (ι × κ))
  | .insert elm => do
    let k ← keys elm
    if elm ∈ es.map Prod.fst then none
    else match es.find? fun e ↦ e.2 = k with
      | some _ => some (none, es)
      | none => some (none, es.orderedInsert (fun e e' ↦ e.2 ≤ e'.2) (elm, k))
  | .remove elm => (keys elm).map fun k ↦ (none, es.filter fun e ↦ e.2 ≠ k)
  | .find elm => (keys elm).map fun k ↦ ((es.find? fun e ↦ e.2 = k).map Prod.fst, es)
  | .next elm =>
    if elm ∈ es.map Prod.fst then
      some ((es.dropWhile fun e ↦ e.1 ≠ elm).tail.head?.map Prod.fst, es)
    else none
  | .min => some (es.head?.map Prod.fst, es)
  | .max => some (es.getLast?.map Prod.fst, es)

/-- The head has a tree with these entries, in the order of their keys. -/
structure Represents (h : SplayHead ι κ) (es : List (ι × κ)) : Prop where
  held : ∃ t, Held h.nodes h.sphRoot t ∧ inorder t = es
  sorted : es.Pairwise fun a b ↦ a.2 < b.2

variable {h : SplayHead ι κ} {es es' : List (ι × κ)} {keys : ι → Option κ} {cmp : κ → κ → ℤ}
  {fuel : ℕ} {d : Side} {i : ι} {k : κ} {c : ι × κ} {t A B : BinaryTree (ι × κ)}

omit [DecidableEq ι] [LinearOrder κ] in
theorem keyOf_of_linked (ht : Linked h.nodes t) (hmem : c ∈ inorder t) :
    h.keyOf c.1 = some c.2 := by
  induction t with
  | nil => cases hmem
  | node b l r ihl ihr =>
    rw [inorder, List.mem_append, List.mem_cons] at hmem
    obtain hl | rfl | hr := hmem
    · exact ihl ht.2.1 hl
    · obtain ⟨n, hn, -, -, hdata⟩ := exists_node_of_links ht.1
      rw [keyOf, hn, Option.map_some, hdata]
    · exact ihr ht.2.2 hr

omit [DecidableEq ι] in
/-- The entries have the keys of their elements. -/
theorem Represents.keyOf_eq (hes : h.Represents es) (hmem : (i, k) ∈ es) :
    h.keyOf i = some k := by
  obtain ⟨t, hh, rfl⟩ := hes.held
  exact keyOf_of_linked hh.linked hmem

omit [DecidableEq ι] in
theorem Represents.nodup (hes : h.Represents es) : (es.map Prod.fst).Nodup := by
  obtain ⟨t, hh, rfl⟩ := hes.held
  exact hh.nodup

omit [DecidableEq ι] in
theorem Represents.sphRoot_eq_none_iff (hes : h.Represents es) : h.sphRoot = none ↔ es = [] := by
  obtain ⟨t, hh, rfl⟩ := hes.held
  rw [hh.root_eq]
  cases t <;> simp [root, inorder]

omit [DecidableEq ι] in
theorem Represents.ne_nil_of_sphRoot (hes : h.Represents es) (hroot : h.sphRoot = some i) :
    es ≠ [] := fun heq ↦ by
  rw [hes.sphRoot_eq_none_iff.2 heq] at hroot
  cases hroot

omit [DecidableEq ι] in
/-- Comparisons with a key fall where the keys rise. -/
theorem falls_of_sorted (hcmp : Compares cmp) (k : κ)
    (hsorted : es.Pairwise fun a b ↦ a.2 < b.2) : Splaying.Falls (cmp k) es := by
  refine hsorted.imp fun {a b} hab ↦ ⟨fun hle ↦ ?_, fun hle ↦ ?_⟩
  · have hka : k ≤ a.2 := not_lt.1 fun hlt ↦ not_lt.2 hle ((hcmp.pos_iff _ _).2 hlt)
    exact (hcmp.neg_iff _ _).2 (hka.trans_lt hab)
  · have hbk : b.2 ≤ k := not_lt.1 fun hlt ↦ not_lt.2 hle ((hcmp.neg_iff _ _).2 hlt)
    exact (hcmp.pos_iff _ _).2 (hab.trans_le hbk)

omit [DecidableEq ι] in
theorem eq_zero_iff_of_compares (hcmp : Compares cmp) (a b : κ) : cmp a b = 0 ↔ a = b := by
  have hneg := hcmp.neg_iff a b
  have hpos := hcmp.pos_iff a b
  constructor
  · intro hzero
    exact le_antisymm (not_lt.1 fun hlt ↦ by have := hpos.2 hlt; omega)
      (not_lt.1 fun hlt ↦ by have := hneg.2 hlt; omega)
  · rintro rfl
    have hneg' := mt hneg.1 (lt_irrefl a)
    have hpos' := mt hpos.1 (lt_irrefl a)
    omega

/-- **`SPLAY` brings up an element that is next to the key**, and the entries stay. -/
theorem Represents.splay (hes : h.Represents es) (hcmp : Compares cmp) (hne : es ≠ []) (k : κ)
    (hfuel : es.length ≤ fuel) :
    ∃ h' c A B, h.splay (cmp k) fuel = some h' ∧ Held h'.nodes h'.sphRoot (.node c A B) ∧
      inorder A ++ c :: inorder B = es ∧ (k < c.2 → ∀ a ∈ inorder A, a.2 < k) ∧
      (c.2 < k → ∀ a ∈ inorder B, k < a.2) ∧ h'.keyOf = h.keyOf := by
  obtain ⟨⟨t, hh, rfl⟩, hsorted⟩ := hes
  have ht : t ≠ .nil := fun heq ↦ hne (by rw [heq, inorder])
  obtain ⟨h', c, A, B, hrun, hh', heq, hA, hB, -⟩ :=
    splay_spec hh ht (falls_of_sorted hcmp k hsorted) hfuel
  exact ⟨h', c, A, B, hrun, hh', heq,
    fun hlt a ha ↦ (hcmp.pos_iff _ _).1 (hA ((hcmp.neg_iff _ _).2 hlt) a ha),
    fun hlt a ha ↦ (hcmp.neg_iff _ _).1 (hB ((hcmp.pos_iff _ _).2 hlt) a ha), keyOf_splay hrun⟩

omit [DecidableEq ι] in
theorem sorted_of_split {l r : List (ι × κ)} (hsorted : (l ++ r).Pairwise fun a b ↦ a.2 < b.2)
    (hl : ∀ e ∈ l, e.2 < k) (hr : ∀ e ∈ r, k < e.2) :
    (l ++ (i, k) :: r).Pairwise fun a b ↦ a.2 < b.2 := by
  obtain ⟨hl', hr', hlr⟩ := List.pairwise_append.1 hsorted
  exact List.pairwise_append.2 ⟨hl', List.pairwise_cons.2 ⟨hr, hr'⟩,
    fun a ha ↦ List.forall_mem_cons.2 ⟨hl a ha, hlr a ha⟩⟩

omit [DecidableEq ι] in
/-- An entry with the key can only be the one that is next to it. -/
theorem eq_of_closest {l r : List (ι × κ)} {e : ι × κ}
    (hsorted : (l ++ c :: r).Pairwise fun a b ↦ a.2 < b.2) (hl : k < c.2 → ∀ a ∈ l, a.2 < k)
    (hr : c.2 < k → ∀ a ∈ r, k < a.2) (he : e ∈ l ++ c :: r) (hek : e.2 = k) : e = c := by
  obtain ⟨-, hcons, hlc⟩ := List.pairwise_append.1 hsorted
  subst hek
  obtain he | he := List.mem_append.1 he
  · have hlt := hlc e he c List.mem_cons_self
    exact absurd (hl hlt e he) (lt_irrefl _)
  · obtain rfl | he := List.mem_cons.1 he
    · rfl
    · have hlt := (List.pairwise_cons.1 hcons).1 e he
      exact absurd (hr hlt e he) (lt_irrefl _)

omit [DecidableEq ι] in
theorem find?_of_closest {l r : List (ι × κ)}
    (hsorted : (l ++ c :: r).Pairwise fun a b ↦ a.2 < b.2) (hl : k < c.2 → ∀ a ∈ l, a.2 < k)
    (hr : c.2 < k → ∀ a ∈ r, k < a.2) :
    (l ++ c :: r).find? (fun e ↦ e.2 = k) = if k = c.2 then some c else none := by
  split
  next heq =>
    subst heq
    exact find?_eq_some hsorted (List.mem_append_right _ List.mem_cons_self)
  next hne =>
    rw [List.find?_eq_none]
    intro e he hek
    have hek' := of_decide_eq_true hek
    exact hne (eq_of_closest hsorted hl hr he hek' ▸ hek'.symm)

omit [DecidableEq ι] in
theorem filter_of_closest {l r : List (ι × κ)}
    (hsorted : (l ++ c :: r).Pairwise fun a b ↦ a.2 < b.2) (hl : k < c.2 → ∀ a ∈ l, a.2 < k)
    (hr : c.2 < k → ∀ a ∈ r, k < a.2) :
    (l ++ c :: r).filter (fun e ↦ e.2 ≠ k) = if k = c.2 then l ++ r else l ++ c :: r := by
  split
  next heq =>
    subst heq
    obtain ⟨-, hcons, hlc⟩ := List.pairwise_append.1 hsorted
    have hl' : ∀ a ∈ l, a.2 ≠ c.2 := fun a ha ↦ (hlc a ha c List.mem_cons_self).ne
    have hr' : ∀ a ∈ r, a.2 ≠ c.2 := fun a ha ↦ ((List.pairwise_cons.1 hcons).1 a ha).ne'
    rw [List.filter_append, List.filter_cons_of_neg (by simp),
      List.filter_eq_self.2 fun a ha ↦ decide_eq_true (hl' a ha),
      List.filter_eq_self.2 fun a ha ↦ decide_eq_true (hr' a ha)]
  next hne =>
    rw [List.filter_eq_self]
    exact fun e he ↦ decide_eq_true fun hek ↦
      hne (eq_of_closest hsorted hl hr he hek ▸ hek.symm)

omit [LinearOrder κ] in
/-- **The new element is above the old root**, which keeps its subtree on the other side. -/
theorem hang_spec (hh : Held h.nodes h.sphRoot (branch d c B A))
    (hnew : i ∉ addresses (branch d c B A)) (hkey : h.keyOf i = some k) :
    ∃ h', h.hang d i c.1 = some h' ∧ h'.keyOf = h.keyOf ∧
      Held h'.nodes h'.sphRoot (branch d (i, k) (branch d c B .nil) A) := by
  obtain ⟨e, he, rfl⟩ := Option.map_eq_some_iff.1 hkey
  obtain ⟨hc, hB, hA⟩ := linked_branch.1 hh.linked
  obtain ⟨n, hn, -, hchild, -⟩ := exists_node_of_links hc
  obtain ⟨hcB, hcA, hBnodup, hAnodup, hBA⟩ := nodup_branch.1 hh.nodup
  have hi : links d h.nodes i = some (e.child d.other, e.child d, e.data) := by
    rw [links, he, Option.map_some]
  rw [mem_addresses_branch, not_or, not_or] at hnew
  obtain ⟨hic, hiB, hiA⟩ := hnew
  -- the three assignments
  let m := modify h.nodes i (Node.setChild d (root A))
  let m' := modify m i (Node.setChild d.other (some c.1))
  let m'' := modify m' c.1 (Node.setChild d none)
  have hmi : links d m i = some (e.child d.other, root A, e.data) := by
    rw [links_setChild, hi]
    rfl
  have hmi' : links d m' i = some (some c.1, root A, e.data) := by
    rw [links_setChild_other, hmi]
    rfl
  have hmc' : links d m' c.1 = some (root B, root A, c.2) :=
    (links_modify_of_ne (Ne.symm hic)).trans ((links_modify_of_ne (Ne.symm hic)).trans hc)
  have hmc'' : links d m'' c.1 = some (root B, none, c.2) := by
    rw [links_setChild, hmc']
    rfl
  have hkeep : ∀ {l : List ι}, i ∉ l → c.1 ∉ l → ∀ j ∈ l,
      links .left m'' j = links .left h.nodes j := fun hil hcl j hj ↦ by
    have hji : j ≠ i := fun heq ↦ hil (heq ▸ hj)
    have hjc : j ≠ c.1 := fun heq ↦ hcl (heq ▸ hj)
    exact (links_modify_of_ne hjc).trans ((links_modify_of_ne hji).trans (links_modify_of_ne hji))
  have hrun₁ := SplayHead.assign_of_links hi d (root A)
  have hrun₂ := SplayHead.assign_of_links (h := ⟨h.sphRoot, m⟩) hmi d.other (some c.1)
  have hrun₃ := SplayHead.assign_of_links (h := ⟨h.sphRoot, m'⟩) hmc' d none
  refine ⟨⟨some i, m''⟩, ?_, ?_, ⟨by rw [root_branch], linked_branch.2 ⟨?_, linked_branch.2
    ⟨hmc'', hB.congr (hkeep hiB hcB), trivial⟩, hA.congr (hkeep hiA hcA)⟩,
    nodup_branch.2 ⟨?_, hiA, nodup_branch.2 ⟨hcB, List.not_mem_nil, hBnodup, List.nodup_nil,
      fun _ _ ↦ List.not_mem_nil⟩, hAnodup, fun j hj ↦ ?_⟩⟩⟩
  · rw [hang, hn, Option.bind_eq_bind, Option.bind_some, hchild, hrun₁, Option.bind_eq_bind,
      Option.bind_some, hrun₂, Option.bind_some]
    refine (congrArg (Option.bind · _) hrun₃).trans ?_
    rfl
  · exact ((keyOf_assign hrun₃).trans ((keyOf_assign hrun₂).trans (keyOf_assign hrun₁)) :)
  · rw [root_branch]
    exact (links_modify_of_ne hic).trans hmi'
  · rw [mem_addresses_branch, not_or, not_or]
    exact ⟨hic, hiB, List.not_mem_nil⟩
  · obtain rfl | hj | hj := mem_addresses_branch.1 hj
    · exact hcA
    · exact hBA j hj
    · cases hj

/-- **`SPLAY_INSERT`** puts the element in unless its key is there. -/
theorem insert_spec (hcmp : Compares cmp) (hes : h.Represents es) (hkey : h.keyOf i = some k)
    (hnew : i ∉ es.map Prod.fst) (hfuel : es.length ≤ fuel) :
    ∃ h', h.insert cmp fuel i = some h' ∧ h'.keyOf = h.keyOf ∧
      ((∃ e, es.find? (fun e ↦ e.2 = k) = some e ∧ h'.Represents es) ∨
        es.find? (fun e ↦ e.2 = k) = none ∧
          h'.Represents (es.orderedInsert (fun e e' ↦ e.2 ≤ e'.2) (i, k))) := by
  obtain ⟨e, he, hek⟩ := Option.map_eq_some_iff.1 hkey
  rw [insert]
  cases hroot : h.sphRoot with
  | none =>
    obtain rfl := hes.sphRoot_eq_none_iff.1 hroot
    have hi : links .right h.nodes i = some (e.child .left, e.child .right, k) := by
      rw [links, he, Option.map_some, hek]
      rfl
    let m := modify h.nodes i (Node.setChild .right none)
    let m' := modify m i (Node.setChild .left none)
    have hmi : links .right m i = some (e.child .left, none, k) := by
      rw [links_setChild, hi]
      rfl
    have hmi' : links .right m' i = some (none, none, k) := by
      have hset : links .right m' i = _ := links_setChild_other (d := .right)
      rw [hset, hmi]
      rfl
    have hrun₁ := SplayHead.assign_of_links hi .right none
    have hrun₂ := SplayHead.assign_of_links (h := ⟨none, m⟩) hmi .left none
    refine ⟨⟨some i, m'⟩, ?_, ?_, Or.inr ⟨rfl, ⟨.node (i, k) .nil .nil, ⟨rfl,
      ⟨hmi', trivial, trivial⟩, List.nodup_singleton i⟩, rfl⟩, List.pairwise_singleton _ _⟩⟩
    · dsimp only
      rw [hrun₁, Option.bind_eq_bind, Option.bind_some, hroot, hrun₂]
      rfl
    · rw [hroot] at hrun₁
      exact ((keyOf_assign hrun₂).trans (keyOf_assign hrun₁) :)
  | some r =>
    obtain ⟨h', c, A, B, hrun, hh', rfl, hA, hB, hkeys⟩ :=
      hes.splay hcmp (hes.ne_nil_of_sphRoot hroot) k hfuel
    obtain ⟨n, hn, -, -, hdata⟩ := exists_node_of_links hh'.linked.1
    have hroot' : h'.sphRoot = some c.1 := hh'.root_eq
    have hkey' : h'.keyOf i = some k := (congrFun hkeys i).trans hkey
    dsimp only
    rw [he, Option.bind_eq_bind, Option.bind_some, hek, hrun, Option.bind_eq_bind,
      Option.bind_some, hroot', Option.bind_eq_bind, Option.bind_some, hn, Option.bind_some, hdata]
    obtain ⟨-, hcons, hAB⟩ := List.pairwise_append.1 hes.sorted
    have hcB := (List.pairwise_cons.1 hcons).1
    have hfind := find?_of_closest hes.sorted hA hB
    obtain hlt | rfl | hlt := lt_trichotomy k c.2
    · obtain ⟨h'', hhang, hkeys', hh''⟩ := hang_spec (d := .left) hh' hnew hkey'
      have hr : ∀ a ∈ c :: inorder B, k < a.2 :=
        List.forall_mem_cons.2 ⟨hlt, fun b hb ↦ hlt.trans (hcB b hb)⟩
      rw [if_pos ((hcmp.neg_iff _ _).2 hlt)]
      refine ⟨h'', hhang, hkeys'.trans hkeys, Or.inr ⟨hfind.trans (if_neg hlt.ne), ?_⟩⟩
      rw [orderedInsert_of_split (hA hlt) hr]
      exact ⟨⟨_, hh'', rfl⟩, sorted_of_split hes.sorted (hA hlt) hr⟩
    · have hzero := (eq_zero_iff_of_compares hcmp c.2 c.2).2 rfl
      rw [if_neg (by omega), if_neg (by omega)]
      exact ⟨h', rfl, hkeys, Or.inl ⟨c, hfind.trans (if_pos rfl), ⟨_, hh', rfl⟩, hes.sorted⟩⟩
    · obtain ⟨h'', hhang, hkeys', hh''⟩ := hang_spec (d := .right) hh' hnew hkey'
      have hpos := (hcmp.pos_iff _ _).2 hlt
      have heq : inorder A ++ c :: inorder B = (inorder A ++ [c]) ++ inorder B := by simp
      have hl : ∀ a ∈ inorder A ++ [c], a.2 < k := fun a ha ↦ by
        obtain ha | ha := List.mem_append.1 ha
        · exact (hAB a ha c List.mem_cons_self).trans hlt
        · exact List.mem_singleton.1 ha ▸ hlt
      have hsorted := hes.sorted
      rw [if_neg (by omega), if_pos hpos]
      refine ⟨h'', hhang, hkeys'.trans hkeys, Or.inr ⟨hfind.trans (if_neg hlt.ne'), ?_⟩⟩
      rw [heq] at hsorted ⊢
      rw [orderedInsert_of_split hl (hB hlt)]
      exact ⟨⟨_, hh'', by simp [branch, inorder]⟩, sorted_of_split hsorted hl (hB hlt)⟩

omit [LinearOrder κ] in
/-- **The right subtree is hung below a root** that has none. -/
theorem join_spec (hh : Held h.nodes h.sphRoot (.node c A .nil)) (hB : Linked h.nodes B)
    (hnodup : (addresses B).Nodup) (hAB : ∀ i ∈ addresses (.node c A .nil), i ∉ addresses B) :
    ∃ h', h.assign c.1 .right (root B) = some h' ∧ Held h'.nodes h'.sphRoot (.node c A B) := by
  have hlinks := hh.linked.1
  obtain ⟨hcA, -, hAnodup, -, -⟩ := nodup_branch (d := .right).1 hh.nodup
  have hcB : c.1 ∉ addresses B := hAB _ (mem_addresses_node.2 (Or.inl rfl))
  have hkeep : ∀ {l : List ι}, c.1 ∉ l → ∀ i ∈ l,
      links .left (modify h.nodes c.1 (Node.setChild .right (root B))) i =
        links .left h.nodes i :=
    fun hl i hi ↦ links_modify_of_ne fun heq ↦ hl (heq ▸ hi)
  refine ⟨_, assign_of_links hlinks .right (root B), hh.root_eq, ⟨?_, hh.linked.2.1.congr
    (hkeep hcA), hB.congr (hkeep hcB)⟩, nodup_branch (d := .right).2 ⟨hcA, hcB, hAnodup, hnodup,
    fun i hi ↦ hAB i (mem_addresses_node.2 (Or.inr (Or.inl hi)))⟩⟩
  rw [links_setChild, hlinks]
  rfl

/-- **`SPLAY_REMOVE`** takes out what has the key. -/
theorem remove_spec (hcmp : Compares cmp) (hes : h.Represents es) (hkey : h.keyOf i = some k)
    (hfuel : es.length ≤ fuel) :
    ∃ h', h.remove cmp fuel i = some h' ∧ h'.keyOf = h.keyOf ∧
      h'.Represents (es.filter fun e ↦ e.2 ≠ k) := by
  obtain ⟨e, he, hek⟩ := Option.map_eq_some_iff.1 hkey
  rw [remove]
  cases hroot : h.sphRoot with
  | none =>
    obtain rfl := hes.sphRoot_eq_none_iff.1 hroot
    exact ⟨h, rfl, rfl, hes⟩
  | some r =>
    obtain ⟨h', c, A, B, hrun, hh', rfl, hA, hB, hkeys⟩ :=
      hes.splay hcmp (hes.ne_nil_of_sphRoot hroot) k hfuel
    obtain ⟨n, hn, hleft, hright, hdata⟩ := exists_node_of_links hh'.linked.1
    have hroot' : h'.sphRoot = some c.1 := hh'.root_eq
    have hsorted := hes.sorted.filter fun e ↦ e.2 ≠ k
    dsimp only
    rw [he, Option.bind_eq_bind, Option.bind_some, hek, hrun, Option.bind_eq_bind,
      Option.bind_some, hroot', Option.bind_eq_bind, Option.bind_some, hn, Option.bind_some, hdata]
    rw [filter_of_closest hes.sorted hA hB] at hsorted ⊢
    by_cases hkc : k = c.2
    swap
    · -- the key is not there
      rw [if_neg (mt (eq_zero_iff_of_compares hcmp k c.2).1 hkc)]
      rw [if_neg hkc] at hsorted ⊢
      exact ⟨h', rfl, hkeys, ⟨_, hh', rfl⟩, hsorted⟩
    · rw [if_pos ((eq_zero_iff_of_compares hcmp k c.2).2 hkc)]
      rw [if_pos hkc] at hsorted ⊢
      subst hkc
      obtain ⟨hAsorted, -, hAB⟩ := List.pairwise_append.1 hes.sorted
      obtain ⟨-, hAlinked, hBlinked⟩ := hh'.linked
      obtain ⟨-, -, hAnodup, hBnodup, hdisjoint⟩ := nodup_branch (d := .right).1 hh'.nodup
      have hleft' : n.left = root A := hleft
      have hright' : n.right = root B := hright
      rw [hleft', hright']
      cases A with
      | nil => exact ⟨⟨root B, h'.nodes⟩, rfl, hkeys, ⟨B, ⟨rfl, hBlinked, hBnodup⟩, rfl⟩, hsorted⟩
      | node b l r =>
        rw [List.length_append] at hfuel
        have hlength : (inorder (.node b l r)).length ≤ fuel := (Nat.le_add_right _ _).trans hfuel
        obtain ⟨h₁, b', A', B', hrun₁, hh₁, heq, -, hB', hout⟩ :=
          splay_spec (h := ⟨some b.1, h'.nodes⟩) ⟨rfl, hAlinked, hAnodup⟩ nofun
            (falls_of_sorted hcmp c.2 hAsorted) hlength
        have hlt : ∀ a ∈ inorder (.node b' A' B'), a.2 < c.2 := fun a ha ↦
          hAB a (heq ▸ ha) c List.mem_cons_self
        -- nothing is on the right of the new root
        obtain rfl : B' = .nil := by
          cases B' with
          | nil => rfl
          | node a l' r' =>
            have ha : a ∈ inorder (.node a l' r') := by simp [inorder]
            have hpos := (hcmp.pos_iff _ _).2 (hlt b' (by simp [inorder]))
            have hneg := (hcmp.neg_iff _ _).1 (hB' hpos a ha)
            exact absurd (hneg.trans (hlt a (by simp [inorder]))) (lt_irrefl _)
        have haddresses : addresses (.node b' A' .nil) = addresses (.node b l r) :=
          congrArg (List.map Prod.fst) heq
        obtain ⟨h₂, hrun₂, hh₂⟩ := join_spec hh₁ (hBlinked.congr (d := .right) fun i hi ↦ by
          rw [links, hout i fun hi' ↦ hdisjoint i hi' hi, links]) hBnodup
            (fun i hi ↦ hdisjoint i (haddresses ▸ hi))
        have hroot₁ : h₁.sphRoot = some b'.1 := hh₁.root_eq
        have hkeys₁ : h₁.keyOf = h'.keyOf := (keyOf_splay hrun₁ :)
        have hkeys₂ : h₂.keyOf = h'.keyOf := (keyOf_assign hrun₂).trans hkeys₁
        refine ⟨h₂, ?_, hkeys₂.trans hkeys, ⟨_, hh₂, ?_⟩, hsorted⟩
        · show (splay (cmp c.2) fuel ⟨some b.1, h'.nodes⟩).bind _ = _
          rw [hrun₁, Option.bind_some, hroot₁, Option.bind_some, hrun₂]
        · rw [inorder, ← heq, inorder]
          simp [inorder]

/-- **`SPLAY_FIND`** finds the element with the key. -/
theorem find_spec (hcmp : Compares cmp) (hes : h.Represents es) (hkey : h.keyOf i = some k)
    (hfuel : es.length ≤ fuel) :
    ∃ h', h.find cmp fuel i = some ((es.find? fun e ↦ e.2 = k).map Prod.fst, h') ∧
      h'.keyOf = h.keyOf ∧ h'.Represents es := by
  obtain ⟨e, he, hek⟩ := Option.map_eq_some_iff.1 hkey
  rw [find]
  cases hroot : h.sphRoot with
  | none =>
    obtain rfl := hes.sphRoot_eq_none_iff.1 hroot
    exact ⟨h, rfl, rfl, hes⟩
  | some r =>
    obtain ⟨h', c, A, B, hrun, hh', rfl, hA, hB, hkeys⟩ :=
      hes.splay hcmp (hes.ne_nil_of_sphRoot hroot) k hfuel
    obtain ⟨n, hn, -, -, hdata⟩ := exists_node_of_links hh'.linked.1
    have hroot' : h'.sphRoot = some c.1 := hh'.root_eq
    refine ⟨h', ?_, hkeys, ⟨_, hh', rfl⟩, hes.sorted⟩
    dsimp only
    rw [he, Option.bind_eq_bind, Option.bind_some, hek, hrun, Option.bind_eq_bind,
      Option.bind_some, hroot', Option.bind_eq_bind, Option.bind_some, hn, Option.bind_some,
      hdata, find?_of_closest hes.sorted hA hB]
    by_cases hkc : k = c.2
    · rw [if_pos hkc, if_pos ((eq_zero_iff_of_compares hcmp k c.2).2 hkc), Option.map_some]
    · rw [if_neg hkc, if_neg (mt (eq_zero_iff_of_compares hcmp k c.2).1 hkc), Option.map_none]

omit [DecidableEq ι] [LinearOrder κ] in
/-- The way down on the left ends at the first element. -/
theorem leftmost_spec (ht : Linked h.nodes (.node c A B))
    (hfuel : (inorder (.node c A B)).length ≤ fuel) :
    h.leftmost fuel c.1 = (inorder (.node c A B)).head?.map Prod.fst := by
  induction A generalizing c B fuel with
  | nil =>
    obtain ⟨n, hn, hleft, -, -⟩ := exists_node_of_links ht.1
    have hleft' : n.left = none := hleft
    cases fuel with
    | zero => simp [inorder] at hfuel
    | succ fuel =>
      rw [leftmost, hn, Option.bind_eq_bind, Option.bind_some, hleft']
      rfl
  | node b l r ihl ihr =>
    obtain ⟨n, hn, hleft, -, -⟩ := exists_node_of_links ht.1
    have hleft' : n.left = some b.1 := hleft
    cases fuel with
    | zero => simp [inorder] at hfuel
    | succ fuel =>
      have hlength : (inorder (.node b l r)).length ≤ fuel := by
        rw [inorder, List.length_append, List.length_cons] at hfuel
        omega
      rw [leftmost, hn, Option.bind_eq_bind, Option.bind_some, hleft']
      dsimp only
      rw [ihl ht.2.1 hlength]
      simp [inorder]

/-- **`SPLAY_NEXT`** finds the element after this one. -/
theorem next_spec (hcmp : Compares cmp) {l r : List (ι × κ)}
    (hes : h.Represents (l ++ c :: r)) (hfuel : (l ++ c :: r).length ≤ fuel) :
    ∃ h', h.next cmp fuel c.1 = some (r.head?.map Prod.fst, h') ∧
      h'.keyOf = h.keyOf ∧ h'.Represents (l ++ c :: r) := by
  have hmem : c ∈ l ++ c :: r := List.mem_append_right _ List.mem_cons_self
  obtain ⟨e, he, hek⟩ := Option.map_eq_some_iff.1 (hes.keyOf_eq hmem)
  obtain ⟨h', c', A, B, hrun, hh', heq, hA, hB, hkeys⟩ :=
    hes.splay hcmp (List.append_ne_nil_of_right_ne_nil _ (List.cons_ne_nil _ _)) c.2 hfuel
  obtain rfl : c = c' := eq_of_closest (heq ▸ hes.sorted) hA hB (heq ▸ hmem) rfl
  obtain ⟨n, hn, -, hright, -⟩ := exists_node_of_links hh'.linked.1
  have hright' : n.right = root B := hright
  obtain ⟨-, hcons, hlc⟩ := List.pairwise_append.1 hes.sorted
  have hl : c ∉ l := fun hc ↦ lt_irrefl _ (hlc c hc c List.mem_cons_self)
  have hr : c ∉ r := fun hc ↦ lt_irrefl _ ((List.pairwise_cons.1 hcons).1 c hc)
  obtain ⟨rfl, -, rfl⟩ := (List.append_cons_inj_of_notMem hl hr).1 heq.symm
  refine ⟨h', ?_, hkeys, ⟨_, hh', rfl⟩, hes.sorted⟩
  rw [next, he, Option.bind_eq_bind, Option.bind_some, hek, hrun, Option.bind_eq_bind,
    Option.bind_some, hn, Option.bind_some, hright']
  cases B with
  | nil => rfl
  | node b l' r' =>
    have hlength : (inorder (.node b l' r')).length ≤ fuel := by
      rw [List.length_append, List.length_cons] at hfuel
      omega
    show Option.map _ (h'.leftmost fuel b.1) = _
    rw [leftmost_spec hh'.linked.2.2 hlength]
    obtain ⟨a, hhead⟩ := exists_head_inorder b l' r'
    rw [hhead]
    rfl

/-- **`SPLAY_MIN` and `SPLAY_MAX`** find the first element and the last. -/
theorem minmax_spec {val : ℤ} (hval : val ≠ 0) (hes : h.Represents es)
    (hfuel : es.length ≤ fuel) :
    ∃ p h', h.minmax fuel val = some (p, h') ∧ (val < 0 → p = es.head?.map Prod.fst) ∧
      (0 < val → p = es.getLast?.map Prod.fst) ∧ h'.keyOf = h.keyOf ∧ h'.Represents es := by
  obtain ⟨⟨t, hh, rfl⟩, hsorted⟩ := id hes
  rw [minmax, hh.root_eq]
  cases t with
  | nil => exact ⟨none, h, rfl, fun _ ↦ rfl, fun _ ↦ rfl, rfl, hes⟩
  | node c₀ l r =>
    have hfalls : Splaying.Falls (fun _ ↦ val) (inorder (.node c₀ l r)) :=
      List.pairwise_of_forall fun _ _ ↦
        ⟨fun hle ↦ lt_of_le_of_ne hle hval, fun hle ↦ lt_of_le_of_ne hle hval.symm⟩
    obtain ⟨h', c, A, B, hrun, hh', heq, hA, hB, -⟩ := splay_spec hh nofun hfalls hfuel
    have hroot' : h'.sphRoot = some c.1 := hh'.root_eq
    refine ⟨some c.1, h', ?_, fun hneg ↦ ?_, fun hpos ↦ ?_, keyOf_splay hrun, ⟨_, hh', heq⟩,
      hsorted⟩
    · dsimp only [root]
      rw [hrun, Option.map_some, hroot']
    · have hnil : inorder A = [] :=
        List.eq_nil_iff_forall_not_mem.2 fun a ha ↦ by
          have := hA hneg a ha
          omega
      rw [← heq, inorder, hnil]
      rfl
    · have hnil : inorder B = [] :=
        List.eq_nil_iff_forall_not_mem.2 fun a ha ↦ by
          have := hB hpos a ha
          omega
      rw [← heq, inorder, hnil, List.getLast?_append_cons]
      rfl

/-- The loop of `SPLAY_FOREACH` goes on through the list, with a splaying for every element. -/
theorem visits_spec (hcmp : Compares cmp) {l r : List (ι × κ)} {rounds : ℕ}
    (hes : h.Represents (l ++ r)) (hfuel : (l ++ r).length ≤ fuel) (hrounds : r.length < rounds) :
    ∃ h', visits cmp fuel rounds (r.head?.map Prod.fst) h = some (r.map Prod.fst, h') ∧
      h'.Represents (l ++ r) := by
  induction r generalizing l h rounds with
  | nil =>
    cases rounds with
    | zero => cases hrounds
    | succ rounds => exact ⟨h, rfl, hes⟩
  | cons c r ih =>
    cases rounds with
    | zero => cases hrounds
    | succ rounds =>
      obtain ⟨h', hnext, -, hes'⟩ := next_spec hcmp hes hfuel
      rw [← List.singleton_append, ← List.append_assoc] at hes' hfuel ⊢
      obtain ⟨h'', hrun, hes''⟩ := ih hes' hfuel (Nat.lt_of_succ_lt_succ hrounds)
      refine ⟨h'', ?_, hes''⟩
      show (h.next cmp fuel c.1).bind _ = _
      rw [hnext, Option.bind_some]
      dsimp only
      rw [hrun]
      rfl

/-- **`SPLAY_FOREACH`** goes through the list. -/
theorem forEach_spec (hcmp : Compares cmp) (hes : h.Represents es) (hfuel : es.length < fuel) :
    ∃ h', h.forEach cmp fuel = some (es.map Prod.fst, h') ∧ h'.Represents es := by
  obtain ⟨p, h₁, hmin, hp, -, -, hes₁⟩ := minmax_spec (by decide : (-1 : ℤ) ≠ 0) hes hfuel.le
  obtain ⟨h', hrun, hes'⟩ := visits_spec (l := []) hcmp hes₁ hfuel.le hfuel
  refine ⟨h', ?_, hes'⟩
  rw [forEach, hmin, hp (by decide)]
  exact hrun

/-! ### Runs -/

/-- The code is where the list is, and can take `n` steps more. -/
structure Agrees (keys : ι → Option κ) (fuel n : ℕ) (es : List (ι × κ)) (h : SplayHead ι κ) :
    Prop where
  represents : h.Represents es
  keyOf_eq : h.keyOf = keys
  lt_fuel : es.length + n < fuel

/-- **The code agrees with the list** in each use of a macro. -/
theorem Agrees.call {n : ℕ} {a : RbCall ι} {b : Option ι} (hcmp : Compares cmp)
    (h₀ : Agrees keys fuel (n + 1) es h) (ha : answer keys es a = some (b, es')) :
    ∃ h', h.call cmp fuel a = some (b, h') ∧ Agrees keys fuel n es' h' := by
  obtain ⟨hes, hkeys, hfuel⟩ := h₀
  have hle : es.length ≤ fuel := by omega
  cases a with
  | insert i =>
    obtain ⟨k, hk, ha⟩ := Option.bind_eq_some_iff.1 ha
    obtain ⟨hnew, ha⟩ := Option.ite_none_left_eq_some.1 ha
    obtain ⟨h', hrun, hkeys', hcases⟩ :=
      insert_spec hcmp hes ((congrFun hkeys i).trans hk) hnew hle
    obtain ⟨e, hfind, hes'⟩ | ⟨hfind, hes'⟩ := hcases
    · rw [hfind] at ha
      obtain ⟨rfl, rfl⟩ := Prod.mk.inj (Option.some.inj ha)
      exact ⟨h', by rw [SplayHead.call, hrun, Option.map_some], hes', hkeys'.trans hkeys, by omega⟩
    · rw [hfind] at ha
      obtain ⟨rfl, rfl⟩ := Prod.mk.inj (Option.some.inj ha)
      refine ⟨h', by rw [SplayHead.call, hrun, Option.map_some], hes', hkeys'.trans hkeys, ?_⟩
      rw [List.orderedInsert_length]
      omega
  | remove i =>
    obtain ⟨k, hk, ha⟩ := Option.map_eq_some_iff.1 ha
    obtain ⟨rfl, rfl⟩ := Prod.mk.inj ha
    obtain ⟨h', hrun, hkeys', hes'⟩ := remove_spec hcmp hes ((congrFun hkeys i).trans hk) hle
    refine ⟨h', by rw [SplayHead.call, hrun, Option.map_some], hes', hkeys'.trans hkeys, ?_⟩
    have hlength := List.length_filter_le (fun e : ι × κ ↦ e.2 ≠ k) es
    omega
  | find i =>
    obtain ⟨k, hk, ha⟩ := Option.map_eq_some_iff.1 ha
    obtain ⟨rfl, rfl⟩ := Prod.mk.inj ha
    obtain ⟨h', hrun, hkeys', hes'⟩ := find_spec hcmp hes ((congrFun hkeys i).trans hk) hle
    exact ⟨h', hrun, hes', hkeys'.trans hkeys, by omega⟩
  | next i =>
    obtain ⟨hmem, ha⟩ := Option.ite_none_right_eq_some.1 ha
    obtain ⟨rfl, rfl⟩ := Prod.mk.inj (Option.some.inj ha)
    obtain ⟨⟨i, k⟩, he, rfl⟩ := List.mem_map.1 hmem
    obtain ⟨l, r, rfl⟩ := List.append_of_mem he
    obtain ⟨h', hrun, hkeys', hes'⟩ := next_spec hcmp hes hle
    rw [dropWhile_of_nodup hes.nodup, List.tail_cons]
    exact ⟨h', hrun, hes', hkeys'.trans hkeys, by omega⟩
  | min =>
    obtain ⟨rfl, rfl⟩ := Prod.mk.inj (Option.some.inj ha)
    obtain ⟨p, h', hrun, hp, -, hkeys', hes'⟩ := minmax_spec (by decide : (-1 : ℤ) ≠ 0) hes hle
    exact ⟨h', hp (by decide) ▸ hrun, hes', hkeys'.trans hkeys, by omega⟩
  | max =>
    obtain ⟨rfl, rfl⟩ := Prod.mk.inj (Option.some.inj ha)
    obtain ⟨p, h', hrun, -, hp, hkeys', hes'⟩ := minmax_spec (by decide : (1 : ℤ) ≠ 0) hes hle
    exact ⟨h', hp (by decide) ▸ hrun, hes', hkeys'.trans hkeys, by omega⟩

omit [DecidableEq ι] in
theorem agrees_init (h : SplayHead ι κ) {n : ℕ} (hfuel : n < fuel) :
    Agrees h.keyOf fuel n [] h.init :=
  ⟨⟨⟨.nil, ⟨rfl, trivial, List.nodup_nil⟩, rfl⟩, .nil⟩, rfl, by
    rw [List.length_nil]
    omega⟩

/-- **The splay tree is the ordered list.** Whatever was in memory before `SPLAY_INIT`, any run of
the macros by the rules gives the answers that the list gives. At its end `SPLAY_FOREACH` goes
through the list, and although it takes the tree apart and puts it together for every element, the
list is the same afterwards. -/
theorem splay_answers_of_run {ops : List (RbCall ι)} {bs : List (Option ι)} (hcmp : Compares cmp)
    (h : SplayHead ι κ) (hrun : answersFrom (answer h.keyOf) [] ops = some (bs, es))
    (hfuel : ops.length < fuel) :
    ∃ h', answersFrom (call cmp fuel) h.init ops = some (bs, h') ∧ h'.Represents es ∧
      ∃ h'', h'.forEach cmp fuel = some (es.map Prod.fst, h'') ∧ h''.Represents es := by
  obtain ⟨h', hrun', hes, -, hlength⟩ := exists_answersFrom (f := answer h.keyOf)
    (g := call cmp fuel) (Agrees h.keyOf fuel) (Agrees.call hcmp) hrun (agrees_init h hfuel)
  exact ⟨h', hrun', hes, forEach_spec hcmp hes hlength⟩

end Answers

/-- Three elements put in, one found, and the middle one taken out again. -/
theorem splay_answers_of_run_three :
    ∃ h', answersFrom (call (fun k k' : ℤ ↦ k - k') 8)
        (init ⟨some 9, fun i : ℕ ↦ some ⟨some i, none, none, (i : ℤ)⟩⟩)
        [.insert 2, .insert 1, .insert 3, .find 1, .remove 2, .next 1, .max] =
        some ([none, none, none, some 1, none, some 3, some 3], h') ∧
      h'.Represents [(1, 1), (3, 3)] ∧
      ∃ h'', h'.forEach (fun k k' : ℤ ↦ k - k') 8 =
          some ([((1 : ℕ), (1 : ℤ)), (3, 3)].map Prod.fst, h'') ∧
        h''.Represents [(1, 1), (3, 3)] :=
  splay_answers_of_run RbHead.compares_sub _ (by decide) (by decide)

end SplayHead

end PreforkHttpd
