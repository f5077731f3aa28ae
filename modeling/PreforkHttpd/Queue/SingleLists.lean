import PreforkHttpd.Pool.Unlinking

/-!
# Removal from the pool's list by hand and by macro

`inc/list.h` has a macro that takes an element out of a singly linked list, `SLIST_REMOVE`, and
`delete_pool_obj` does not use it: its own loop looks for a pid and relinks by hand. Both are here
in the memory of `PreforkHttpd.Pool.Unlinking`.

The macro is told the element and looks for the one before it. It has no test for the end of the
list, so for an element that is not on the list it comes to the null pointer and dereferences it
(`Holds.slistRemove_eq_null`). On the list it does what the loop does, except that it frees nothing
(`Holds.slistRemove_spec`). `deleteLoop_agrees` puts the two side by side.
-/

open LinkedList

namespace PreforkHttpd

namespace PoolMemory

/-! ### The macros -/

/-- Why a macro has no result. -/
inductive WalkFault
  /-- It dereferences the null pointer. -/
  | null
  /-- It reads a node that is not allocated. -/
  | freed
  /-- Its loop has not ended after so many rounds. -/
  | running
deriving DecidableEq

/-- The node that a pointer points to. -/
def read (m : PoolMemory) : Option ℕ → Except WalkFault (Cell ℕ Processor)
  | none => .error .null
  | some item => (m.cells item).elim (.error .freed) .ok

/-- `SLIST_REMOVE_HEAD`. -/
def slistRemoveHead (m : PoolMemory) : Except WalkFault PoolMemory := do
  let first ← m.read m.slhFirst
  return { m with slhFirst := first.next }

/-- The loop of `SLIST_REMOVE`: the last element before `elm`, from `curelm` on. -/
def slistBefore (elm : ℕ) (m : PoolMemory) : ℕ → Option ℕ → Except WalkFault ℕ
  | _, none => .error .null
  | 0, some _ => .error .running
  | rounds + 1, some curelm => do
    let cell ← m.read (some curelm)
    if cell.next = some elm then return curelm else slistBefore elm m rounds cell.next

/-- `SLIST_REMOVE`. -/
def slistRemove (rounds elm : ℕ) (m : PoolMemory) : Except WalkFault PoolMemory :=
  if m.slhFirst = some elm then m.slistRemoveHead
  else do
    let curelm ← slistBefore elm m rounds m.slhFirst
    let cell ← m.read (some curelm)
    let next ← m.read cell.next
    return { m with
      cells := Function.update m.cells curelm (some { cell with next := next.next }) }

/-- `free`. -/
def free (item : ℕ) (m : PoolMemory) : PoolMemory :=
  { m with cells := Function.update m.cells item none }

/-! ### On the list -/

variable {m : PoolMemory} {nodes front rest : List (ℕ × Processor)} {pid : ℤ} {elm : ℕ}
  {b c : ℕ × Processor}

theorem read_of_eq_some {item : ℕ} {cell : Cell ℕ Processor} (h : m.cells item = some cell) :
    m.read (some item) = .ok cell := by
  rw [read, h]
  rfl

/-- The loop finds the element before. The induction is on the elements that are passed. -/
theorem slistBefore_append {e : Option ℕ} (h : Chain m.cells (front ++ b :: c :: rest) e)
    (hnodup : ((front ++ b :: c :: rest).map Prod.fst).Nodup) {rounds : ℕ}
    (hrounds : front.length < rounds) :
    slistBefore c.1 m rounds (start (front ++ b :: c :: rest) e) = .ok b.1 := by
  obtain ⟨rounds, rfl⟩ := Nat.exists_eq_add_one.2 (Nat.zero_lt_of_lt hrounds)
  induction front generalizing rounds with
  | nil =>
    rw [List.nil_append, start, slistBefore, read_of_eq_some h.1]
    exact if_pos rfl
  | cons x front ih =>
    rw [List.cons_append, List.map_cons, List.nodup_cons] at hnodup
    rw [List.length_cons] at hrounds
    obtain ⟨rounds, rfl⟩ : ∃ k, rounds = k + 1 := Nat.exists_eq_add_one.2 (by omega)
    -- the element behind `x` is not the one that is looked for
    have hne : start (front ++ b :: c :: rest) e ≠ some c.1 := by
      intro heq
      rw [List.map_append, List.map_cons, List.map_cons] at hnodup
      cases front with
      | nil => simp [Option.some.inj heq] at hnodup
      | cons y front => simp [Option.some.inj heq] at hnodup
    rw [List.cons_append, start, slistBefore, read_of_eq_some h.1]
    exact (if_neg hne).trans (ih h.2 hnodup.2 _ (by omega))

/-- **The loop runs off the end** of a list that does not have the element. -/
theorem slistBefore_of_notMem (h : Chain m.cells nodes none) (helm : elm ∉ nodes.tail.map Prod.fst)
    {rounds : ℕ} (hrounds : nodes.length ≤ rounds) :
    slistBefore elm m rounds (start nodes none) = .error .null := by
  induction nodes generalizing rounds with
  | nil => cases rounds <;> rfl
  | cons x nodes ih =>
    rw [List.length_cons] at hrounds
    obtain ⟨rounds, rfl⟩ : ∃ k, rounds = k + 1 := Nat.exists_eq_add_one.2 (by omega)
    rw [List.tail_cons] at helm
    have hne : start nodes none ≠ some elm := by
      intro heq
      cases nodes with
      | nil => cases heq
      | cons y nodes => exact helm (by simp [← Option.some.inj heq])
    have htail : elm ∉ nodes.tail.map Prod.fst := fun hmem ↦
      helm (List.map_subset _ (List.tail_sublist nodes).subset hmem)
    rw [start, slistBefore, read_of_eq_some h.1]
    exact (if_neg hne).trans (ih h.2 htail (by omega))

/-- **The macro dereferences the null pointer** when the element is not on the list. -/
theorem Holds.slistRemove_eq_null (hm : m.Holds nodes) (helm : elm ∉ nodes.map Prod.fst)
    {rounds : ℕ} (hrounds : nodes.length ≤ rounds) :
    slistRemove rounds elm m = .error .null := by
  have hfirst : m.slhFirst ≠ some elm := by
    rw [hm.first]
    intro heq
    cases nodes with
    | nil => cases heq
    | cons x nodes => exact helm (by simp [← Option.some.inj heq])
  have htail : elm ∉ nodes.tail.map Prod.fst := fun hmem ↦
    helm (List.map_subset _ (List.tail_sublist nodes).subset hmem)
  rw [slistRemove, if_neg hfirst, hm.first, slistBefore_of_notMem hm.chain htail hrounds]
  rfl

/-- The memory in which the elements of `front` are followed by `next`. -/
def relink (front : List (ℕ × Processor)) (next : Option ℕ) (m : PoolMemory) : PoolMemory :=
  match front.getLast? with
  | none => { m with slhFirst := next }
  | some b => { m with cells := Function.update m.cells b.1 (some ⟨b.2, next⟩) }

/-- The element before another one, in the notation of `relink`. -/
theorem Holds.before (hm : m.Holds (front ++ c :: rest)) (hb : front.getLast? = some b) :
    m.cells b.1 = some ⟨b.2, some c.1⟩ ∧ b.1 ≠ c.1 ∧ some c.1 ≠ m.slhFirst := by
  obtain ⟨init, rfl⟩ := List.getLast?_eq_some_iff.1 hb
  rw [List.append_assoc, List.singleton_append] at hm
  have hnodup := hm.chain.nodup
  simp only [List.map_append, List.map_cons, List.nodup_append, List.nodup_cons, List.mem_cons,
    not_or] at hnodup
  exact ⟨hm.cell, hnodup.2.1.1.1, hm.ne_first⟩

/-- Relinking and freeing take the element out. -/
theorem Holds.free_relink (hm : m.Holds (front ++ c :: rest)) :
    ((m.relink front (start rest none)).free c.1).Holds (front ++ rest) := by
  rcases List.eq_nil_or_concat front with rfl | ⟨init, b, rfl⟩
  · exact ⟨rfl, hm.chain.unlink_first⟩
  · rw [List.concat_eq_append] at hm ⊢
    rw [relink, List.getLast?_concat]
    rw [List.append_assoc, List.singleton_append] at hm ⊢
    refine ⟨?_, hm.chain.unlink⟩
    show m.slhFirst = _
    rw [hm.first, start_append, start_append]
    rfl

/-- **The macro on the list** relinks. -/
theorem Holds.slistRemove_eq (hm : m.Holds (front ++ c :: rest)) {rounds : ℕ}
    (hrounds : front.length < rounds) :
    slistRemove rounds c.1 m = .ok (m.relink front (start rest none)) := by
  have hcell := hm.cell
  rcases hlast : front.getLast? with - | b
  · obtain rfl := List.getLast?_eq_none_iff.1 hlast
    have hfirst : m.slhFirst = some c.1 := hm.first
    rw [slistRemove, if_pos hfirst, slistRemoveHead, hfirst, read_of_eq_some hcell, relink, hlast]
    rfl
  · obtain ⟨hb, -, hne⟩ := hm.before hlast
    have hbefore : slistBefore c.1 m rounds m.slhFirst = .ok b.1 := by
      obtain ⟨init, rfl⟩ := List.getLast?_eq_some_iff.1 hlast
      rw [List.length_append] at hrounds
      rw [hm.first]
      rw [List.append_assoc, List.singleton_append] at hm ⊢
      exact slistBefore_append hm.chain hm.chain.nodup (by omega)
    rw [slistRemove, if_neg hne.symm, hbefore, relink, hlast]
    show (m.read (some b.1)).bind _ = _
    rw [read_of_eq_some hb]
    show (m.read (some c.1)).bind _ = _
    rw [read_of_eq_some hcell]
    rfl

/-! ### By hand -/

/-- The loop by hand passes the elements without the pid. -/
theorem Holds.deleteLoop_pass {before : List (ℕ × Processor)} {pre : Option ℕ}
    (hm : m.Holds (before ++ (front ++ rest))) (hpre : Behind before pre)
    (hfront : ∀ x ∈ front, x.2.pid ≠ pid) (rounds : ℕ) :
    ∃ pre', Behind (before ++ front) pre' ∧
      deleteLoop pid m (rounds + front.length) pre (start (front ++ rest) none) =
        deleteLoop pid m rounds pre' (start rest none) := by
  induction front generalizing before pre with
  | nil => exact ⟨pre, (List.append_nil before).symm ▸ hpre, rfl⟩
  | cons x front ih =>
    obtain ⟨hx, hfront⟩ := List.forall_mem_cons.1 hfront
    have hcell := hm.cell
    rw [List.cons_append, List.append_cons] at hm
    obtain ⟨pre', hpre', heq⟩ := ih hm (Or.inr ⟨before, x, rfl, rfl⟩) hfront
    refine ⟨pre', List.append_cons before x front ▸ hpre', ?_⟩
    rw [List.length_cons, ← Nat.add_assoc, List.cons_append, start, deleteLoop, hcell,
      Option.bind_some, if_neg hx]
    exact heq

/-- **By hand the element is relinked and freed.** -/
theorem Holds.deleteLoop_eq (hm : m.Holds (front ++ c :: rest))
    (hfront : ∀ x ∈ front, x.2.pid ≠ pid) (hpid : c.2.pid = pid) {rounds : ℕ}
    (hrounds : front.length < rounds) :
    deleteLoop pid m rounds m.slhFirst m.slhFirst =
      some ((m.relink front (start rest none)).free c.1) := by
  obtain ⟨rounds, rfl⟩ : ∃ k, rounds = k + 1 + front.length :=
    ⟨rounds - front.length - 1, by omega⟩
  have hstart : m.Holds ([] ++ (front ++ c :: rest)) := hm
  have hfirst : Behind [] m.slhFirst := Or.inl rfl
  obtain ⟨pre, hpre, heq⟩ := hstart.deleteLoop_pass hfirst hfront (rounds + 1)
  rw [← hm.first] at heq
  rw [heq, start, deleteLoop, hm.cell, Option.bind_some, if_pos hpid]
  rcases hpre with hnil | ⟨init, b, hfront', rfl⟩
  · obtain rfl : front = [] := hnil
    exact if_pos hm.first.symm
  · have hlast : front.getLast? = some b := by
      rw [← List.nil_append front, hfront', List.getLast?_concat]
    obtain ⟨hb, -, hne⟩ := hm.before hlast
    rw [if_neg hne, Option.bind_some, hb, Option.bind_some, relink, hlast]
    rfl

/-- **By hand and by macro.** For every list in memory: a deletion by hand whose pid is on the list
does what `SLIST_REMOVE` of the first element of that pid does, followed by `free`, and the list has
lost that element. A deletion whose pid is not on the list leaves everything as it is, while
`SLIST_REMOVE` of an element that is not on the list runs off the end and dereferences the null
pointer. -/
theorem deleteLoop_agrees (hm : m.Holds nodes) (pid : ℤ) {rounds : ℕ}
    (hrounds : nodes.length ≤ rounds) :
    (∀ c ∈ nodes.find? (fun c ↦ c.2.pid = pid), ∃ m', slistRemove rounds c.1 m = .ok m' ∧
      deleteLoop pid m rounds m.slhFirst m.slhFirst = some (m'.free c.1) ∧
      (m'.free c.1).Holds (without pid nodes)) ∧
    ((∀ c ∈ nodes, c.2.pid ≠ pid) → deleteLoop pid m rounds m.slhFirst m.slhFirst = some m) ∧
    ∀ elm ∉ nodes.map Prod.fst, slistRemove rounds elm m = .error .null := by
  refine ⟨fun c hc ↦ ?_, fun hnone ↦ ?_, fun _ helm ↦
    hm.slistRemove_eq_null helm hrounds⟩
  · obtain ⟨hpid, front, rest, rfl, hfront⟩ := List.find?_eq_some_iff_append.1 hc
    simp only [decide_eq_true_eq, Bool.not_eq_true', decide_eq_false_iff_not] at hpid hfront
    have hlt : front.length < rounds := by
      rw [List.length_append, List.length_cons] at hrounds
      omega
    refine ⟨_, hm.slistRemove_eq hlt, hm.deleteLoop_eq hfront hpid hlt, ?_⟩
    have hwithout : without pid (front ++ c :: rest) = front ++ rest := by
      rw [without, List.eraseP_append_right _ (by simpa using hfront)]
      exact congrArg (front ++ ·) (without_cons_of_eq hpid)
    exact hwithout ▸ hm.free_relink
  · obtain ⟨rounds, rfl⟩ := Nat.exists_eq_add_of_le' hrounds
    have hstart : m.Holds ([] ++ (nodes ++ [])) := (List.append_nil nodes).symm ▸ hm
    have hfirst : Behind [] m.slhFirst := Or.inl rfl
    obtain ⟨pre, -, heq⟩ := hstart.deleteLoop_pass hfirst hnone rounds
    rw [List.append_nil, ← hm.first] at heq
    rw [heq]
    exact deleteLoop_end rounds

/-- The last of two elements goes; there is no third one. -/
theorem deleteLoop_agrees_twoNodes :
    (∃ m', slistRemove 2 32 twoNodes = .ok m' ∧
      deleteLoop 8 twoNodes 2 twoNodes.slhFirst twoNodes.slhFirst = some (m'.free 32) ∧
      (m'.free 32).Holds (without 8 [(16, ⟨7, maxFdNum, 0⟩), (32, ⟨8, maxFdNum, 0⟩)])) ∧
    slistRemove 2 48 twoNodes = .error .null :=
  ⟨(deleteLoop_agrees holds_twoNodes 8 le_rfl).1 (32, ⟨8, maxFdNum, 0⟩) rfl,
    (deleteLoop_agrees holds_twoNodes 8 le_rfl).2.2 48 (by decide)⟩

end PoolMemory

end PreforkHttpd
