import Mathlib.Data.List.Sort
import PreforkHttpd.Transition.PartialRun
import PreforkHttpd.Tree.RbRemove

/-!
# Runs of the red-black tree

What `tree.h` is for: a set of elements with keys that are in order. `RbCall` lists the uses of the
macros, `answer` says what each of them means for the list of entries, and `call` is the code.

After any run of the macros that puts in no element which is in, and asks for no removal or
successor of an element which is not, the code has given the same answers as the list, and the tree
is no deeper than twice the logarithm of its size.
-/

open LinkedTree RedBlack LabelledRun

namespace PreforkHttpd

namespace RbHead

variable {ι κ : Type} [DecidableEq ι]

/-- A use of a macro. -/
inductive RbCall (ι : Type)
  | insert (elm : ι)
  | remove (elm : ι)
  | find (elm : ι)
  | next (elm : ι)
  | min
  | max
deriving DecidableEq

/-- The code of a macro: what it returns, and the head afterwards. -/
def call (cmp : κ → κ → ℤ) (fuel : ℕ) (h : RbHead ι κ) : RbCall ι → Option (Option ι × RbHead ι κ)
  | .insert elm => h.insert cmp fuel elm
  | .remove elm => (h.remove fuel elm).map fun h ↦ (none, h)
  | .find elm => (h.find cmp fuel elm).map fun p ↦ (p, h)
  | .next elm => (h.next fuel elm).map fun p ↦ (p, h)
  | .min => (h.minmax fuel (-1)).map fun p ↦ (p, h)
  | .max => (h.minmax fuel 1).map fun p ↦ (p, h)

section Answers

variable [LinearOrder κ]

/-- What a use of a macro means for the entries, when each element has its key. -/
def answer (keys : ι → Option κ) (es : List (ι × κ)) : RbCall ι → Option (Option ι × List (ι × κ))
  | .insert elm => do
    let k ← keys elm
    if elm ∈ es.map Prod.fst then none
    else match es.find? fun e ↦ e.2 = k with
      | some e => some (some e.1, es)
      | none => some (none, es.orderedInsert (fun e e' ↦ e.2 ≤ e'.2) (elm, k))
  | .remove elm => if elm ∈ es.map Prod.fst then some (none, es.filter fun e ↦ e.1 ≠ elm) else none
  | .find elm => (keys elm).map fun k ↦ ((es.find? fun e ↦ e.2 = k).map Prod.fst, es)
  | .next elm =>
    if elm ∈ es.map Prod.fst then
      some ((es.dropWhile fun e ↦ e.1 ≠ elm).tail.head?.map Prod.fst, es)
    else none
  | .min => some (es.head?.map Prod.fst, es)
  | .max => some (es.getLast?.map Prod.fst, es)

variable {h : RbHead ι κ} {es es' : List (ι × κ)} {keys : ι → Option κ} {cmp : κ → κ → ℤ} {fuel : ℕ}
  {i : ι} {k : κ}

/-- The keys of the elements in memory. -/
def keyOf (h : RbHead ι κ) (i : ι) : Option κ := (h.nodes i).map fun n ↦ n.data.key

omit [DecidableEq ι] in
/-- The entries have the keys of their elements. -/
theorem Represents.keyOf_eq (hes : h.Represents es) (hmem : (i, k) ∈ es) : h.keyOf i = some k := by
  obtain ⟨t, hh, -, -, rfl⟩ := hes
  obtain ⟨c, hc, heq⟩ := List.mem_map.1 hmem
  obtain ⟨fs, l, r, rfl⟩ := exists_plug_of_mem hc
  obtain ⟨rfl, rfl⟩ := Prod.mk.inj heq
  rw [keyOf, hh.node (d := .right) fs, Option.map_some, data_mkNode]

omit [DecidableEq ι] in
theorem Represents.nodup (hes : h.Represents es) : (es.map Prod.fst).Nodup := by
  obtain ⟨t, hh, -, -, rfl⟩ := hes
  rw [← addresses_eq_map_entries]
  exact hh.nodup

/-- The code is where the list is, and can take `n` steps more. -/
structure Agrees (keys : ι → Option κ) (fuel n : ℕ) (es : List (ι × κ)) (h : RbHead ι κ) :
    Prop where
  represents : h.Represents es
  keyOf_eq : h.keyOf = keys
  lt_fuel : es.length + n < fuel

omit [DecidableEq ι] in
theorem keyOf_eq_of_outside {h' : RbHead ι κ} (hes : h.Represents es) (hes' : h'.Represents es')
    (hsub : ∀ e ∈ es', e ∈ es ∨ h.keyOf e.1 = some e.2)
    (hout : ∀ j ∉ es'.map Prod.fst, h'.keyOf j = h.keyOf j) : h'.keyOf = h.keyOf := by
  funext j
  by_cases hj : j ∈ es'.map Prod.fst
  · obtain ⟨e, he, rfl⟩ := List.mem_map.1 hj
    rw [hes'.keyOf_eq he]
    obtain hmem | hkey := hsub e he
    · exact (hes.keyOf_eq hmem).symm
    · exact hkey.symm
  · exact hout j hj

omit [DecidableEq ι] in
theorem orderedInsert_of_split {l r : List (ι × κ)} (hl : ∀ e ∈ l, e.2 < k)
    (hr : ∀ e ∈ r, k < e.2) :
    (l ++ r).orderedInsert (fun e e' ↦ e.2 ≤ e'.2) (i, k) = l ++ (i, k) :: r := by
  induction l with
  | nil =>
    cases r with
    | nil => rfl
    | cons e r => exact List.orderedInsert_cons_of_le _ _ (hr e List.mem_cons_self).le
  | cons e l ih =>
    obtain ⟨he, hl⟩ := List.forall_mem_cons.1 hl
    have hstep := List.orderedInsert_of_not_le (r := fun e e' : ι × κ ↦ e.2 ≤ e'.2) (a := (i, k))
      (l ++ r) (not_le.2 he)
    rw [List.cons_append, hstep, ih hl, List.cons_append]

/-- **`RB_INSERT` agrees** with the list. -/
theorem Agrees.insert {n : ℕ} {b : Option ι} (hcmp : Compares cmp)
    (h₀ : Agrees keys fuel (n + 1) es h) (ha : answer keys es (.insert i) = some (b, es')) :
    ∃ h', h.insert cmp fuel i = some (b, h') ∧ Agrees keys fuel n es' h' := by
  obtain ⟨hes, hkeys, hfuel⟩ := h₀
  obtain ⟨k, hk, ha⟩ := Option.bind_eq_some_iff.1 ha
  obtain ⟨node, hnode, rfl⟩ := Option.map_eq_some_iff.1 ((congrFun hkeys i).trans hk)
  obtain ⟨hnew, ha⟩ := Option.ite_none_left_eq_some.1 ha
  obtain ⟨j, hj, hrun⟩ | ⟨h', l, r, rfl, hl, hr, hrun, hes', hout⟩ :=
    insert_spec hcmp hes hnode hnew ((Nat.le_add_right _ _).trans_lt hfuel)
  · -- an element with this key is there
    obtain ⟨t, -, -, hordered, rfl⟩ := id hes
    rw [find?_eq_some (ordered_iff_entries.1 hordered) hj] at ha
    obtain ⟨rfl, rfl⟩ := Prod.mk.inj (Option.some.inj ha)
    exact ⟨h, hrun, hes, hkeys, by omega⟩
  · have hnone : (l ++ r).find? (fun e ↦ e.2 = node.data.key) = none := by
      rw [List.find?_eq_none]
      intro e he
      obtain he | he := List.mem_append.1 he
      · simpa using (hl e he).ne
      · simpa using (hr e he).ne'
    rw [hnone] at ha
    obtain ⟨rfl, rfl⟩ := Prod.mk.inj (Option.some.inj ha)
    have hsplit := orderedInsert_of_split (i := i) hl hr
    refine ⟨h', hrun, ?_, ?_, ?_⟩
    · rw [hsplit]
      exact hes'
    · rw [← hkeys]
      refine keyOf_eq_of_outside hes hes' (fun e he ↦ ?_) fun j hj ↦ ?_
      · obtain he | he := List.mem_append.1 he
        · exact Or.inl (List.mem_append_left _ he)
        · obtain rfl | he := List.mem_cons.1 he
          · exact Or.inr ((congrFun hkeys i).trans hk)
          · exact Or.inl (List.mem_append_right _ he)
      · simp only [List.map_append, List.map_cons, List.mem_append, List.mem_cons, not_or] at hj
        have hmem : j ∉ (l ++ r).map Prod.fst := by
          rw [List.map_append, List.mem_append, not_or]
          exact ⟨hj.1, hj.2.2⟩
        rw [keyOf, hout j hj.2.1 hmem, keyOf]
    · rw [List.orderedInsert_length]
      omega

/-- **`RB_REMOVE` agrees** with the list. -/
theorem Agrees.remove {n : ℕ} {b : Option ι} (h₀ : Agrees keys fuel (n + 1) es h)
    (ha : answer keys es (.remove i) = some (b, es')) :
    ∃ h', h.remove fuel i = some h' ∧ b = none ∧ Agrees keys fuel n es' h' := by
  obtain ⟨hes, hkeys, hfuel⟩ := h₀
  obtain ⟨hmem, ha⟩ := Option.ite_none_right_eq_some.1 ha
  obtain ⟨rfl, rfl⟩ := Prod.mk.inj (Option.some.inj ha)
  obtain ⟨⟨i, k⟩, he, rfl⟩ := List.mem_map.1 hmem
  obtain ⟨es₁, es₂, rfl⟩ := List.append_of_mem he
  have hnodup := hes.nodup
  rw [List.map_append, List.map_cons, List.nodup_middle, List.nodup_cons,
    ← List.map_append] at hnodup
  have hne : ∀ e ∈ es₁ ++ es₂, e.1 ≠ i := fun e he heq ↦
    hnodup.1 (List.mem_map.2 ⟨e, he, heq⟩)
  have hfilter : (es₁ ++ (i, k) :: es₂).filter (fun e ↦ e.1 ≠ i) = es₁ ++ es₂ := by
    rw [List.filter_append, List.filter_cons_of_neg (by simp), ← List.filter_append,
      List.filter_eq_self]
    exact fun e he ↦ decide_eq_true (hne e he)
  obtain ⟨h', hrun, hes', hout, m, hm, hmkey⟩ :=
    remove_spec hes ((Nat.le_add_right _ _).trans_lt hfuel)
  refine ⟨h', hrun, rfl, by rwa [hfilter], ?_, ?_⟩
  · rw [← hkeys]
    refine keyOf_eq_of_outside hes hes' (fun e he ↦ Or.inl ?_) fun j hj ↦ ?_
    · exact (List.sublist_cons_self _ _).append_left _ |>.subset he
    · by_cases hji : j = i
      · subst hji
        rw [hes.keyOf_eq he, keyOf, hm, Option.map_some, hmkey]
      · have hout' := hout j (by
          rw [List.map_append, List.map_cons, List.mem_append, List.mem_cons, not_or, not_or]
          rw [List.map_append, List.mem_append, not_or] at hj
          exact ⟨hj.1, hji, hj.2⟩)
        rw [keyOf, hout', keyOf]
  · rw [hfilter]
    rw [List.length_append, List.length_cons] at hfuel
    rw [List.length_append]
    omega

omit [LinearOrder κ] in
/-- The search for an element of a list goes past what is before it. -/
theorem dropWhile_of_nodup {es₁ es₂ : List (ι × κ)}
    (hnodup : ((es₁ ++ (i, k) :: es₂).map Prod.fst).Nodup) :
    (es₁ ++ (i, k) :: es₂).dropWhile (fun e ↦ e.1 ≠ i) = (i, k) :: es₂ := by
  rw [List.map_append, List.map_cons, List.nodup_middle, List.nodup_cons, List.mem_append,
    not_or] at hnodup
  have hne : ∀ e ∈ es₁, decide (e.1 ≠ i) = true := fun e he ↦ decide_eq_true fun heq ↦
    hnodup.1.1 (List.mem_map.2 ⟨e, he, heq⟩)
  rw [List.dropWhile_append_of_pos hne, List.dropWhile_cons_of_neg (by simp)]

/-- **The code agrees with the list** in each use of a macro. -/
theorem Agrees.call {n : ℕ} {a : RbCall ι} {b : Option ι} (hcmp : Compares cmp)
    (h₀ : Agrees keys fuel (n + 1) es h) (ha : answer keys es a = some (b, es')) :
    ∃ h', h.call cmp fuel a = some (b, h') ∧ Agrees keys fuel n es' h' := by
  obtain ⟨hes, hkeys, hfuel⟩ := id h₀
  have hlt : es.length < fuel := (Nat.le_add_right _ _).trans_lt hfuel
  have hsame : Agrees keys fuel n es h := ⟨hes, hkeys, by omega⟩
  cases a with
  | insert i => exact h₀.insert hcmp ha
  | remove i =>
    obtain ⟨h', hrun, rfl, h₁⟩ := h₀.remove ha
    exact ⟨h', by rw [RbHead.call, hrun, Option.map_some], h₁⟩
  | find i =>
    obtain ⟨k, hk, ha⟩ := Option.map_eq_some_iff.1 ha
    obtain ⟨rfl, rfl⟩ := Prod.mk.inj ha
    obtain ⟨node, hnode, rfl⟩ := Option.map_eq_some_iff.1 ((congrFun hkeys i).trans hk)
    exact ⟨h, by rw [RbHead.call, find_spec hcmp hes hnode hlt, Option.map_some], hsame⟩
  | next i =>
    obtain ⟨hmem, ha⟩ := Option.ite_none_right_eq_some.1 ha
    obtain ⟨rfl, rfl⟩ := Prod.mk.inj (Option.some.inj ha)
    obtain ⟨⟨i, k⟩, he, rfl⟩ := List.mem_map.1 hmem
    obtain ⟨es₁, es₂, rfl⟩ := List.append_of_mem he
    rw [dropWhile_of_nodup hes.nodup, List.tail_cons]
    exact ⟨h, by rw [RbHead.call, next_spec hes hlt, Option.map_some], hsame⟩
  | min =>
    obtain ⟨rfl, rfl⟩ := Prod.mk.inj (Option.some.inj ha)
    exact ⟨h, by rw [RbHead.call, (minmax_spec hes hlt).1, Option.map_some], hsame⟩
  | max =>
    obtain ⟨rfl, rfl⟩ := Prod.mk.inj (Option.some.inj ha)
    exact ⟨h, by rw [RbHead.call, (minmax_spec hes hlt).2, Option.map_some], hsame⟩

omit [DecidableEq ι] in
theorem agrees_init (h : RbHead ι κ) {n : ℕ} (hfuel : n < fuel) :
    Agrees h.keyOf fuel n [] h.init := by
  refine ⟨⟨.nil, ⟨rfl, trivial, List.nodup_nil⟩, ⟨0, .nil⟩, .nil, rfl⟩, rfl, ?_⟩
  rw [List.length_nil]
  omega

/-- **The red-black tree is the ordered list.** Whatever was in memory before `RB_INIT`, any run of
the macros by the rules gives the answers that the list gives. At its end `RB_FOREACH` goes through
the list, and no element is deeper than twice the logarithm of their number plus one. -/
theorem answers_of_run {ops : List (RbCall ι)} {bs : List (Option ι)} (hcmp : Compares cmp)
    (h : RbHead ι κ) (hrun : answersFrom (answer h.keyOf) [] ops = some (bs, es))
    (hfuel : ops.length < fuel) :
    ∃ h', answersFrom (call cmp fuel) h.init ops = some (bs, h') ∧
      h'.forEach fuel = some (es.map Prod.fst) ∧
      ∃ t, h'.Holds t ∧ IsRedBlack t ∧ entries t = es ∧
        height t ≤ 2 * Nat.log 2 (es.length + 1) := by
  obtain ⟨h', hrun', hes, -, hlength⟩ := exists_answersFrom (f := answer h.keyOf)
    (g := call cmp fuel) (Agrees h.keyOf fuel) (Agrees.call hcmp) hrun (agrees_init h hfuel)
  refine ⟨h', hrun', forEach_spec hes hlength, ?_⟩
  obtain ⟨t, hh, hrb, -, rfl⟩ := hes
  exact ⟨t, hh, hrb, rfl, hrb.height_le⟩

end Answers

theorem compares_sub : Compares fun k k' : ℤ ↦ k - k' where
  neg_iff a b := by
    show a - b < 0 ↔ a < b
    omega
  pos_iff a b := by
    show 0 < a - b ↔ b < a
    omega

/-- Three elements put in, the middle one found and taken out again. -/
theorem answers_of_run_three :
    ∃ h', answersFrom (call (fun k k' : ℤ ↦ k - k') 8)
        (init ⟨some 9, fun i : ℕ ↦ some ⟨some i, none, none, ⟨.black, (i : ℤ)⟩⟩⟩)
        [.insert 2, .insert 1, .insert 3, .find 2, .remove 2, .next 1, .max] =
        some ([none, none, none, some 2, none, some 3, some 3], h') ∧
      h'.forEach 8 = some ([((1 : ℕ), (1 : ℤ)), (3, 3)].map Prod.fst) ∧
      ∃ t, h'.Holds t ∧ IsRedBlack t ∧ entries t = [(1, 1), (3, 3)] ∧
        height t ≤ 2 * Nat.log 2 ([((1 : ℕ), (1 : ℤ)), (3, 3)].length + 1) :=
  answers_of_run compares_sub _ (by decide) (by decide)

end RbHead

end PreforkHttpd
