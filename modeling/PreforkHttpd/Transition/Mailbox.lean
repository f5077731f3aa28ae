import Mathlib.Data.List.Basic
import Mathlib.Data.List.Perm.Basic

/-!
# Mailboxes with messages of several kinds

A mailbox is a list of messages, the oldest first. Each message has a **kind**, a sender puts its
message at the end, and a receiver that asks for a kind takes the oldest message of it
(`takeFirst`). Receivers that ask for different kinds overtake each other, so what was sent is not
received in the order of sending. What is kept is the order **within** each kind: `Delivered` says
that the messages of each kind that were sent are those received and those waiting, in this order.

It is kept by every send and every receive, of whatever kinds and in whatever order
(`Delivered.send`, `Delivered.receive`). So no message is lost, none is received twice
(`Delivered.perm`), and none overtakes another of its kind.
-/

namespace Mailbox

variable {α κ : Type*} [DecidableEq κ] {kind : α → κ} {k : κ} {m : α} {box rest : List α}

/-- The oldest message of kind `k`, and what is left when it is taken. -/
def takeFirst (kind : α → κ) (k : κ) (box : List α) : Option (α × List α) :=
  (box.find? (kind · = k)).map fun m ↦ (m, box.eraseP (kind · = k))

theorem eraseP_of_first {before after : List α} (hm : kind m = k)
    (hbefore : ∀ x ∈ before, kind x ≠ k) :
    (before ++ m :: after).eraseP (kind · = k) = before ++ after := by
  rw [List.eraseP_append_right _ fun x hx ↦ by simpa using hbefore x hx]
  exact congrArg _ (List.eraseP_cons_of_pos (decide_eq_true hm))

/-- **Taking** splits the mailbox at the oldest message of the kind. -/
theorem takeFirst_eq_some_iff : takeFirst kind k box = some (m, rest) ↔
    ∃ before after, box = before ++ m :: after ∧ kind m = k ∧ (∀ x ∈ before, kind x ≠ k) ∧
      rest = before ++ after := by
  rw [takeFirst, Option.map_eq_some_iff]
  constructor
  · rintro ⟨m', hfind, h⟩
    obtain ⟨rfl, rfl⟩ := Prod.mk.inj h
    obtain ⟨hm, before, after, rfl, hbefore⟩ := List.find?_eq_some_iff_append.1 hfind
    have hm' : kind m' = k := of_decide_eq_true hm
    have hbefore' : ∀ x ∈ before, kind x ≠ k := fun x hx ↦ by simpa using hbefore x hx
    exact ⟨before, after, rfl, hm', hbefore', eraseP_of_first hm' hbefore'⟩
  · rintro ⟨before, after, rfl, hm, hbefore, rfl⟩
    have hfind : (before ++ m :: after).find? (kind · = k) = some m :=
      List.find?_eq_some_iff_append.2
        ⟨decide_eq_true hm, before, after, rfl, fun x hx ↦ by simpa using hbefore x hx⟩
    exact ⟨m, hfind, congrArg _ (eraseP_of_first hm hbefore)⟩

/-- A message can be taken if one of the kind is there. -/
theorem isSome_takeFirst_iff : (takeFirst kind k box).isSome ↔ ∃ m ∈ box, kind m = k := by
  simp [takeFirst]

/-- The messages of kind `k`. -/
def ofKind (kind : α → κ) (k : κ) (box : List α) : List α := box.filter (kind · = k)

@[simp] theorem ofKind_append (box box' : List α) :
    ofKind kind k (box ++ box') = ofKind kind k box ++ ofKind kind k box' :=
  List.filter_append ..

@[simp] theorem ofKind_cons (m : α) (box : List α) :
    ofKind kind k (m :: box) =
      if kind m = k then m :: ofKind kind k box else ofKind kind k box := by
  simp [ofKind, List.filter_cons]

@[simp] theorem ofKind_nil : ofKind kind k [] = [] := rfl

theorem ofKind_eq_nil (h : ∀ x ∈ box, kind x ≠ k) : ofKind kind k box = [] :=
  List.filter_eq_nil_iff.2 fun x hx ↦ by simpa using h x hx

/-- **The oldest message** of a kind is the first of it, and taking it leaves the other kinds
alone. -/
theorem ofKind_of_takeFirst (h : takeFirst kind k box = some (m, rest)) (j : κ) :
    ofKind kind j box = ofKind kind j [m] ++ ofKind kind j rest := by
  obtain ⟨before, after, rfl, hm, hbefore, rfl⟩ := takeFirst_eq_some_iff.1 h
  by_cases hj : j = k
  · subst hj
    simp [ofKind_eq_nil hbefore, hm]
  · have hne : kind m ≠ j := fun heq ↦ hj (heq.symm.trans hm)
    simp [hne]

/-! ### What was sent -/

/-- Of each kind, what was sent is what was received and what is waiting, in this order. -/
def Delivered (kind : α → κ) (sent received waiting : List α) : Prop :=
  ∀ k, ofKind kind k sent = ofKind kind k received ++ ofKind kind k waiting

variable {sent received waiting : List α}

theorem delivered_nil : Delivered kind [] [] ([] : List α) := fun _ ↦ rfl

theorem Delivered.send (h : Delivered kind sent received waiting) (m : α) :
    Delivered kind (sent ++ [m]) received (waiting ++ [m]) := fun k ↦ by
  rw [ofKind_append, ofKind_append, h k, List.append_assoc]

theorem Delivered.receive (h : Delivered kind sent received waiting)
    (htake : takeFirst kind k waiting = some (m, rest)) :
    Delivered kind sent (received ++ [m]) rest := fun j ↦ by
  rw [h j, ofKind_of_takeFirst htake j, ofKind_append, List.append_assoc]

/-- **Every message once**: what was sent is what was received and what is waiting, in some
order. -/
theorem Delivered.perm (h : Delivered kind sent received waiting) :
    sent.Perm (received ++ waiting) := by
  classical
  refine List.perm_iff_count.2 fun m ↦ ?_
  have hcount : ∀ box : List α, (ofKind kind (kind m) box).count m = box.count m := fun box ↦
    List.count_filter (decide_eq_true rfl)
  rw [← hcount sent, h (kind m), List.count_append, List.count_append, hcount, hcount]

end Mailbox
