import Mathlib.Data.List.Induction
import Mathlib.Data.List.Nodup
import Mathlib.Logic.Function.Basic

/-!
# Doubly linked sequences in memory

A head and any number of elements, each with a forward field and a backward field. A `Spot` is one
of them. The forward field of a place holds a pointer to the next element or an end marker; what a
pointer is, and what marks the end, is left open (`ptr` and the `e` of `Linked`), so that a list
that ends in a null pointer and one that closes on its head are spoken of alike. The backward field
holds a place.

`Linked` and `Back` say that the forward and the backward fields agree with a list of elements, and
they are kept apart: an update of one kind of field does not concern the other. Inserting an element
between two spots, or taking one out, is one assignment on each side of it
(`Linked.insert`, `Linked.remove`, `Back.insert`, `Back.remove`).
-/

namespace LinkFields

variable {ι π : Type*}

/-- The head, or an element. -/
inductive Spot (ι : Type*)
  | head
  | elem (i : ι)
deriving DecidableEq

/-- The fields of the head and of the elements. -/
structure Fields (ι π : Type*) where
  next : Spot ι → π
  prev : Spot ι → Spot ι

namespace Fields

variable [DecidableEq ι]

/-- Assign to a forward field. -/
def setNext (p : Spot ι) (v : π) (m : Fields ι π) : Fields ι π :=
  { m with next := Function.update m.next p v }

/-- Assign to a backward field. -/
def setPrev (p q : Spot ι) (m : Fields ι π) : Fields ι π :=
  { m with prev := Function.update m.prev p q }

@[simp] theorem next_setNext (p : Spot ι) (v : π) (m : Fields ι π) :
    (m.setNext p v).next = Function.update m.next p v := rfl

@[simp] theorem prev_setNext (p : Spot ι) (v : π) (m : Fields ι π) :
    (m.setNext p v).prev = m.prev := rfl

@[simp] theorem next_setPrev (p q : Spot ι) (m : Fields ι π) :
    (m.setPrev p q).next = m.next := rfl

@[simp] theorem prev_setPrev (p q : Spot ι) (m : Fields ι π) :
    (m.setPrev p q).prev = Function.update m.prev p q := rfl

end Fields

/-! ### What the fields say -/

/-- The forward fields lead from `p` through these elements to `e`. -/
def Linked (ptr : ι → π) (next : Spot ι → π) : Spot ι → List ι → π → Prop
  | p, [], e => next p = e
  | p, i :: l, e => next p = ptr i ∧ Linked ptr next (.elem i) l e

/-- The backward field of each of these elements is the place before it, `p` for the first. -/
def Back (prev : Spot ι → Spot ι) : Spot ι → List ι → Prop
  | _, [] => True
  | p, i :: l => prev (.elem i) = p ∧ Back prev (.elem i) l

/-- The last place of the sequence behind `p`. -/
def last : Spot ι → List ι → Spot ι
  | p, [] => p
  | _, i :: l => last (.elem i) l

/-- The first place of a sequence, the head when there is none. -/
def first : List ι → Spot ι
  | [] => .head
  | i :: _ => .elem i

/-- What the place before a sequence points to. -/
def start (ptr : ι → π) : List ι → π → π
  | [], e => e
  | i :: _, _ => ptr i

/-- All spots of a sequence, `p` first. -/
def spots (p : Spot ι) (l : List ι) : List (Spot ι) := p :: l.map .elem

variable {ptr : ι → π} {next : Spot ι → π} {prev : Spot ι → Spot ι} {p q : Spot ι}
  {l l₁ l₂ : List ι} {e v : π} {i : ι}

theorem last_append (p : Spot ι) (l₁ l₂ : List ι) :
    last p (l₁ ++ l₂) = last (last p l₁) l₂ := by
  induction l₁ generalizing p with
  | nil => rfl
  | cons i l₁ ih => exact ih _

@[simp] theorem last_concat (p : Spot ι) (l : List ι) (i : ι) : last p (l ++ [i]) = .elem i :=
  last_append p l [i]

theorem last_mem_spots (p : Spot ι) (l : List ι) : last p l ∈ spots p l := by
  induction l generalizing p with
  | nil => exact List.mem_singleton_self p
  | cons i l ih => exact List.mem_cons_of_mem p (ih _)

theorem elem_mem_spots : .elem i ∈ spots .head l ↔ i ∈ l := by
  simp [spots]

/-- The spots are distinct when the elements are. -/
theorem nodup_places (h : l.Nodup) : (spots (.head : Spot ι) l).Nodup := by
  refine List.nodup_cons.2 ⟨by simp, h.map fun i j hij ↦ ?_⟩
  exact Spot.elem.inj hij

/-- The forward field of the place before a sequence. -/
theorem Linked.next_start (h : Linked ptr next p l e) : next p = start ptr l e := by
  cases l with
  | nil => exact h
  | cons i l => exact h.1

/-- **A linked sequence splits** where its list does. -/
theorem linked_append :
    Linked ptr next p (l₁ ++ l₂) e ↔
      Linked ptr next p l₁ (start ptr l₂ e) ∧ Linked ptr next (last p l₁) l₂ e := by
  induction l₁ generalizing p with
  | nil => exact ⟨fun h ↦ ⟨h.next_start, h⟩, fun h ↦ h.2⟩
  | cons i l₁ ih => rw [List.cons_append, Linked, Linked, ih, and_assoc]; rfl

theorem back_append :
    Back prev p (l₁ ++ l₂) ↔ Back prev p l₁ ∧ Back prev (last p l₁) l₂ := by
  induction l₁ generalizing p with
  | nil => exact (and_iff_right trivial).symm
  | cons i l₁ ih => rw [List.cons_append, Back, Back, ih, and_assoc]; rfl

/-- The forward field of the last place. -/
theorem Linked.next_last (h : Linked ptr next p l e) : next (last p l) = e := by
  induction l generalizing p with
  | nil => exact h
  | cons i l ih => exact ih h.2

/-- The forward field of the last place before a sequence. -/
theorem Linked.next_last_append (h : Linked ptr next p (l₁ ++ l₂) e) :
    next (last p l₁) = start ptr l₂ e :=
  (linked_append.1 h).1.next_last

/-- The forward field of an element. -/
theorem Linked.next_elem (h : Linked ptr next p (l₁ ++ i :: l₂) e) :
    next (.elem i) = start ptr l₂ e :=
  (linked_append.1 h).2.2.next_start

/-- The backward field of the first element behind a place. -/
theorem Back.prev_elem (h : Back prev p (l₁ ++ i :: l₂)) : prev (.elem i) = last p l₁ :=
  (back_append.1 h).2.1

theorem Linked.congr {next' : Spot ι → π} (h : Linked ptr next p l e)
    (hnext : ∀ q ∈ spots p l, next' q = next q) : Linked ptr next' p l e := by
  induction l generalizing p with
  | nil => exact (hnext p (List.mem_singleton_self p)).trans h
  | cons i l ih =>
    obtain ⟨hfirst, hrest⟩ := List.forall_mem_cons.1 hnext
    exact ⟨hfirst.trans h.1, ih h.2 hrest⟩

theorem Back.congr {prev' : Spot ι → Spot ι} (h : Back prev p l)
    (hprev : ∀ i ∈ l, prev' (.elem i) = prev (.elem i)) : Back prev' p l := by
  induction l generalizing p with
  | nil => trivial
  | cons i l ih =>
    obtain ⟨hfirst, hrest⟩ := List.forall_mem_cons.1 hprev
    exact ⟨hfirst.trans h.1, ih h.2 hrest⟩

/-- The spots of a sequence in two parts. -/
theorem nodup_append_places (h : (l₁ ++ l₂).Nodup) :
    (spots (.head : Spot ι) l₁).Nodup ∧ (∀ q ∈ l₂.map .elem, q ∉ spots .head l₁) ∧
      l₂.Nodup := by
  obtain ⟨h₁, h₂, hdisjoint⟩ := List.nodup_append.1 h
  refine ⟨nodup_places h₁, fun q hq hmem ↦ ?_, h₂⟩
  obtain ⟨i, hi, rfl⟩ := List.mem_map.1 hq
  exact hdisjoint i (elem_mem_spots.1 hmem) i hi rfl

theorem elem_ne_first_of_notMem (h : i ∉ l) : Spot.elem i ≠ first l := by
  cases l with
  | nil => exact nofun
  | cons j l => exact fun heq ↦ h (Spot.elem.inj heq ▸ List.mem_cons_self)

/-- The place behind an element is not its own. -/
theorem elem_ne_first (h : (l₁ ++ i :: l₂).Nodup) : Spot.elem i ≠ first l₂ :=
  elem_ne_first_of_notMem (List.nodup_cons.1 (List.nodup_append.1 h).2.1).1

/-! ### Traversals -/

/-- Visit the elements that a pointer field leads to, one after the other, beginning with the field
of `p`, for no more than so many rounds. -/
def walk (next : Spot ι → Option ι) : ℕ → Spot ι → Option (List ι)
  | rounds, p => match next p, rounds with
    | none, _ => some []
    | some _, 0 => none
    | some i, rounds + 1 => (walk next rounds (.elem i)).map (i :: ·)

/-- **A traversal ends** at the null pointer, and has visited what is linked. -/
theorem Linked.walk {next : Spot ι → Option ι} (h : Linked some next p l none) {rounds : ℕ}
    (hrounds : l.length ≤ rounds) : walk next rounds p = some l := by
  induction l generalizing p rounds with
  | nil =>
    unfold LinkFields.walk
    rw [show next p = none from h]
  | cons i l ih =>
    cases rounds with
    | zero => exact absurd hrounds (Nat.not_succ_le_zero _)
    | succ rounds =>
      unfold LinkFields.walk
      rw [h.1]
      show (LinkFields.walk next rounds (.elem i)).map (i :: ·) = _
      rw [ih h.2 (Nat.le_of_succ_le_succ hrounds), Option.map_some]

/-- **Linked the other way round**: a field that names the element before links the sequence in the
opposite order. -/
theorem linked_reverse {prev : Spot ι → Option ι} (hp : prev p = l.getLast?)
    (hprev : ∀ l₁ i l₂, l = l₁ ++ i :: l₂ → prev (.elem i) = l₁.getLast?) :
    Linked some prev p l.reverse none := by
  induction l using List.reverseRecOn generalizing p with
  | nil => exact hp
  | append_singleton l j ih =>
    rw [List.reverse_concat]
    rw [List.getLast?_concat] at hp
    refine ⟨hp, ih (hprev l j [] rfl) fun l₁ i l₂ hl ↦ hprev l₁ i (l₂ ++ [j]) ?_⟩
    rw [hl, List.append_assoc, List.cons_append]

/-! ### Assignments -/

variable [DecidableEq ι]

theorem Linked.update (h : Linked ptr next p l e) (hq : q ∉ spots p l) (v : π) :
    Linked ptr (Function.update next q v) p l e :=
  h.congr fun _ hr ↦ Function.update_of_ne (ne_of_mem_of_not_mem hr hq) _ _

theorem Back.update (h : Back prev p l) (hq : ∀ i ∈ l, Spot.elem i ≠ q) (r : Spot ι) :
    Back (Function.update prev q r) p l :=
  h.congr fun i hi ↦ Function.update_of_ne (hq i hi) _ _

/-- **Another end**: the field of the last place is assigned. -/
theorem Linked.update_last (h : Linked ptr next p l e) (hnodup : (spots p l).Nodup) (v : π) :
    Linked ptr (Function.update next (last p l) v) p l v := by
  induction l generalizing p with
  | nil => exact Function.update_self p v next
  | cons i l ih =>
    obtain ⟨hp, hrest⟩ := List.nodup_cons.1 hnodup
    have hne : p ≠ last (.elem i) l := fun heq ↦ hp (heq ▸ last_mem_spots _ _)
    exact ⟨(Function.update_of_ne hne _ _).trans h.1, ih h.2 hrest⟩

/-- The part behind the assigned place stays linked. -/
theorem Linked.update_behind (h : Linked ptr next (.elem i) l₂ e) (hnodup : (l₁ ++ i :: l₂).Nodup)
    (v : π) : Linked ptr (Function.update next (last .head l₁) v) (.elem i) l₂ e := by
  obtain ⟨-, hbehind, -⟩ := nodup_append_places hnodup
  exact h.update (fun hmem ↦ hbehind _ hmem (last_mem_spots _ _)) v

/-- **An element is linked in** behind the place that the first part ends with. -/
theorem Linked.insert (h : Linked ptr next .head (l₁ ++ l₂) e) (hi : i ∉ l₁ ++ l₂)
    (hnodup : (l₁ ++ l₂).Nodup) :
    Linked ptr (Function.update (Function.update next (.elem i) (next (last .head l₁)))
      (last .head l₁) (ptr i)) .head (l₁ ++ i :: l₂) e := by
  obtain ⟨hi₁, hi₂⟩ := not_or.1 (mt List.mem_append.2 hi)
  have hnext := h.next_last_append
  obtain ⟨hfront, hback⟩ := linked_append.1 h
  obtain ⟨hplaces, hbehind, -⟩ := nodup_append_places hnodup
  have hlast : last .head l₁ ≠ Spot.elem i := fun heq ↦
    hi₁ (elem_mem_spots.1 (heq ▸ last_mem_spots _ _))
  refine linked_append.2 ⟨?_, Function.update_self _ _ _, ?_⟩
  · exact (hfront.update (mt elem_mem_spots.1 hi₁) _).update_last hplaces _
  · rw [hnext]
    cases l₂ with
    | nil => exact (Function.update_of_ne hlast.symm _ _).trans (Function.update_self _ _ _)
    | cons j l₂ =>
      refine ⟨(Function.update_of_ne hlast.symm _ _).trans (Function.update_self _ _ _), ?_⟩
      refine (hback.2.update ?_ _).update (fun hmem ↦ hbehind _ hmem (last_mem_spots _ _)) _
      exact fun hmem ↦ hi₂ ((List.mem_map_of_injective fun _ _ ↦ Spot.elem.inj).1 hmem)

/-- **An element is taken out** of the forward fields. -/
theorem Linked.remove (h : Linked ptr next .head (l₁ ++ i :: l₂) e)
    (hnodup : (l₁ ++ i :: l₂).Nodup) :
    Linked ptr (Function.update next (last .head l₁) (next (.elem i))) .head (l₁ ++ l₂) e := by
  obtain ⟨hfront, -, hback⟩ := linked_append.1 h
  have hnext : next (.elem i) = start ptr l₂ e := hback.next_start
  obtain ⟨hplaces, -, -⟩ := nodup_append_places hnodup
  rw [hnext]
  refine linked_append.2 ⟨hfront.update_last hplaces _, ?_⟩
  cases l₂ with
  | nil => exact Function.update_self _ _ _
  | cons j l₂ =>
    refine ⟨Function.update_self _ _ _, ?_⟩
    rw [List.append_cons] at hnodup
    have hmoved : (l₁ ++ j :: l₂).Nodup := hnodup.sublist (by simp)
    exact hback.2.update_behind hmoved _

/-- **An element is put between** in the backward fields. -/
theorem Back.insert (h : Back prev .head (l₁ ++ l₂)) (hi : i ∉ l₁ ++ l₂)
    (hnodup : (l₁ ++ l₂).Nodup) :
    Back (Function.update (Function.update prev (first l₂) (.elem i)) (.elem i) (last .head l₁))
      .head (l₁ ++ i :: l₂) := by
  obtain ⟨hi₁, hi₂⟩ := not_or.1 (mt List.mem_append.2 hi)
  obtain ⟨hfront, hback⟩ := back_append.1 h
  have hne : ∀ {l : List ι}, i ∉ l → ∀ j ∈ l, Spot.elem j ≠ .elem i := fun hl j hj heq ↦
    hl (Spot.elem.inj heq ▸ hj)
  refine back_append.2 ⟨(hfront.update ?_ _).update (hne hi₁) _, Function.update_self _ _ _, ?_⟩
  · cases l₂ with
    | nil => exact fun _ _ ↦ nofun
    | cons k l₂ =>
      rintro j hj heq
      exact (List.nodup_append.1 hnodup).2.2 j hj k (by simp) (Spot.elem.inj heq)
  · cases l₂ with
    | nil => trivial
    | cons k l₂ =>
      obtain ⟨-, hsecond, -⟩ := List.nodup_append.1 hnodup
      have hk : Spot.elem k ≠ .elem i := hne hi₂ k (by simp)
      refine ⟨(Function.update_of_ne hk _ _).trans (Function.update_self _ _ _), ?_⟩
      refine (hback.2.update (fun j hj heq ↦ ?_) _).update (hne (fun hl ↦ hi₂ (by simp [hl]))) _
      exact (List.nodup_cons.1 hsecond).1 (Spot.elem.inj heq ▸ hj)

/-- **An element is taken out** of the backward fields. -/
theorem Back.remove (h : Back prev .head (l₁ ++ i :: l₂)) (hnodup : (l₁ ++ i :: l₂).Nodup) :
    Back (Function.update prev (first l₂) (last .head l₁)) .head (l₁ ++ l₂) := by
  obtain ⟨hfront, -, hback⟩ := back_append.1 h
  cases l₂ with
  | nil =>
    rw [List.append_nil]
    refine hfront.update ?_ _
    exact fun _ _ ↦ nofun
  | cons k l₂ =>
    obtain ⟨-, hsecond, hdisjoint⟩ := List.nodup_append.1 hnodup
    refine back_append.2 ⟨hfront.update (fun j hj heq ↦ ?_) _, Function.update_self _ _ _,
      hback.2.update (fun j hj heq ↦ ?_) _⟩
    · exact hdisjoint j hj k (by simp) (Spot.elem.inj heq)
    · have hk := (List.nodup_cons.1 (List.nodup_cons.1 hsecond).2).1
      exact hk (Spot.elem.inj heq ▸ hj)

/-- The last place after an insertion: the new element, if it is put behind the others. -/
theorem update_last_insert (h : prev .head = last .head (l₁ ++ l₂)) :
    Function.update (Function.update prev (first l₂) (.elem i)) (.elem i) (last .head l₁) .head =
      last .head (l₁ ++ i :: l₂) := by
  rw [Function.update_of_ne (nofun : Spot.head ≠ .elem i), last_append]
  cases l₂ with
  | nil => exact Function.update_self _ _ _
  | cons j l₂ =>
    rw [last_append] at h
    exact (Function.update_of_ne (nofun : Spot.head ≠ .elem j) _ _).trans h

/-- The last place after a removal: the one before, if the last element is taken out. -/
theorem update_last_remove (h : prev .head = last .head (l₁ ++ i :: l₂)) :
    Function.update prev (first l₂) (last .head l₁) .head = last .head (l₁ ++ l₂) := by
  rw [last_append] at h ⊢
  cases l₂ with
  | nil => exact Function.update_self _ _ _
  | cons j l₂ => exact (Function.update_of_ne (nofun : Spot.head ≠ .elem j) _ _).trans h

/-! ### Rings -/

/-- The fields hold a sequence of distinct elements, linked both ways, and the backward field of the
head is the last place of it. -/
structure Ring (ptr : ι → π) (e : π) (m : Fields ι π) (l : List ι) : Prop where
  nodup : l.Nodup
  linked : Linked ptr m.next .head l e
  back : Back m.prev .head l
  closed : m.prev .head = last .head l

variable {m m' : Fields ι π}

/-- **An element is linked into a ring.** -/
theorem Ring.insert (h : Ring ptr e m (l₁ ++ l₂)) (hi : i ∉ l₁ ++ l₂)
    (hnext : m'.next = Function.update (Function.update m.next (.elem i)
      (m.next (last .head l₁))) (last .head l₁) (ptr i))
    (hprev : m'.prev = Function.update (Function.update m.prev (first l₂) (.elem i)) (.elem i)
      (last .head l₁)) : Ring ptr e m' (l₁ ++ i :: l₂) where
  nodup := List.nodup_middle.2 (List.nodup_cons.2 ⟨hi, h.nodup⟩)
  linked := hnext ▸ h.linked.insert hi h.nodup
  back := hprev ▸ h.back.insert hi h.nodup
  closed := hprev ▸ update_last_insert h.closed

/-- **An element is taken out of a ring.** -/
theorem Ring.remove (h : Ring ptr e m (l₁ ++ i :: l₂))
    (hnext : m'.next = Function.update m.next (last .head l₁) (m.next (.elem i)))
    (hprev : m'.prev = Function.update m.prev (first l₂) (last .head l₁)) :
    Ring ptr e m' (l₁ ++ l₂) where
  nodup := (List.nodup_cons.1 (List.nodup_middle.1 h.nodup)).2
  linked := hnext ▸ h.linked.remove h.nodup
  back := hprev ▸ h.back.remove h.nodup
  closed := hprev ▸ update_last_remove h.closed

end LinkFields
