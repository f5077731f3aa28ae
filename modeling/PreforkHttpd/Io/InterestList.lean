import Mathlib.Data.List.Nodup
import Mathlib.Data.Prod.Basic

/-!
# Interest lists

An event loop registers descriptors with an **interest list** and is told when something happens on
them. This module is about such a list in the manner of `epoll`, over any type `δ` of descriptors,
any type `ο` of the objects that they refer to, and any type `μ` of what can be asked for.

What makes these lists delicate is that a registration belongs to the descriptor **and** to the
object that it referred to when it was registered. It does not end when the descriptor is closed. It
ends when it is deleted, or when the last reference to its object is gone, wherever that reference
is: another descriptor of the process will do, and so will one of another process.

`Live` is the invariant that one would like to have: every registered descriptor still refers to
the object it was registered for. Adding, changing and deleting keep it. Closing keeps it when the
closed descriptors hold the last references to what they are registered for (`Live.closeAll`), and
otherwise leaves a descriptor registered that is not open (`not_allOpen_closeAll`).
-/

/-- Why a change of an interest list fails. -/
inductive CtlError
  /-- The list or the descriptor is not open. -/
  | ebadf
  /-- Adding what is registered. -/
  | eexist
  /-- Changing or deleting what is not registered. -/
  | enoent
deriving DecidableEq

/-- A registration: the descriptor, its object, and what is asked for. -/
structure Registration (δ ο μ : Type*) where
  fd : δ
  object : ο
  mask : μ
deriving DecidableEq

/-- The registration with `mask`, if it is the one of `d` for `o`. -/
def Registration.update {δ ο μ : Type*} [DecidableEq δ] [DecidableEq ο] (d : δ) (o : ο) (mask : μ)
    (r : Registration δ ο μ) : Registration δ ο μ :=
  if (r.fd, r.object) = (d, o) then { r with mask := mask } else r

/-- A process with an interest list. -/
structure Interests (δ ο μ : Type*) where
  /-- The descriptor of the list itself, as long as it is open. -/
  self : Option δ
  /-- The open descriptors and what they refer to. -/
  table : List (δ × ο)
  nodup : (table.map Prod.fst).Nodup
  interest : List (Registration δ ο μ)
  /-- The objects that something outside the process refers to. -/
  elsewhere : List ο

namespace Interests

variable {δ ο μ : Type*} [DecidableEq δ] [DecidableEq ο] {e : Interests δ ο μ} {d : δ} {o : ο}
  {m : μ} {r : Registration δ ο μ}

/-! ### Descriptors -/

/-- The descriptor is open. -/
def IsOpen (e : Interests δ ο μ) (d : δ) : Prop := d ∈ e.table.map Prod.fst

instance (e : Interests δ ο μ) (d : δ) : Decidable (e.IsOpen d) :=
  inferInstanceAs (Decidable (d ∈ _))

/-- Something still refers to the object. -/
def Refers (e : Interests δ ο μ) (o : ο) : Prop := o ∈ e.table.map Prod.snd ∨ o ∈ e.elsewhere

instance (e : Interests δ ο μ) (o : ο) : Decidable (e.Refers o) :=
  inferInstanceAs (Decidable (_ ∨ _))

/-- What the descriptor refers to. -/
def object (e : Interests δ ο μ) (d : δ) : Option ο := e.table.lookup d

/-- The descriptor is registered with its present object. -/
def IsRegistered (e : Interests δ ο μ) (d : δ) (o : ο) : Prop :=
  (d, o) ∈ e.interest.map fun r ↦ (r.fd, r.object)

instance (e : Interests δ ο μ) (d : δ) (o : ο) : Decidable (e.IsRegistered d o) :=
  inferInstanceAs (Decidable (_ ∈ _))

/-- `close(d)`: the descriptor goes, and with it the registrations of an object that nothing refers
to any more. Closing the list itself ends all of them. -/
def close (e : Interests δ ο μ) (d : δ) : Interests δ ο μ :=
  let table := e.table.filter fun entry ↦ entry.1 ≠ d
  { self := if e.self = some d then none else e.self
    table := table
    nodup := e.nodup.sublist (List.filter_sublist.map _)
    interest := if e.self = some d then [] else
      e.interest.filter fun r ↦ r.object ∈ table.map Prod.snd ∨ r.object ∈ e.elsewhere
    elsewhere := e.elsewhere }

/-- The references to `o` outside the process go. -/
def release (e : Interests δ ο μ) (o : ο) : Interests δ ο μ :=
  let elsewhere := e.elsewhere.filter (· ≠ o)
  { e with
    interest := e.interest.filter fun r ↦ r.object ∈ e.table.map Prod.snd ∨ r.object ∈ elsewhere
    elsewhere := elsewhere }

/-! ### Changing the list -/

/-- The present object of `d`, when `d` and the list are open. -/
def target (e : Interests δ ο μ) (d : δ) : Except CtlError ο :=
  match e.self, e.object d with
  | some _, some o => .ok o
  | _, _ => .error .ebadf

/-- `EPOLL_CTL_ADD`. -/
def ctlAdd (e : Interests δ ο μ) (d : δ) (m : μ) : Except CtlError (Interests δ ο μ) :=
  match e.target d with
  | .error err => .error err
  | .ok o =>
    if e.IsRegistered d o then .error .eexist
    else .ok { e with interest := ⟨d, o, m⟩ :: e.interest }

/-- `EPOLL_CTL_MOD`. -/
def ctlMod (e : Interests δ ο μ) (d : δ) (m : μ) : Except CtlError (Interests δ ο μ) :=
  match e.target d with
  | .error err => .error err
  | .ok o =>
    if e.IsRegistered d o then
      .ok { e with interest := e.interest.map (Registration.update d o m) }
    else .error .enoent

/-- `EPOLL_CTL_DEL`. -/
def ctlDel (e : Interests δ ο μ) (d : δ) : Except CtlError (Interests δ ο μ) :=
  match e.target d with
  | .error err => .error err
  | .ok o =>
    if e.IsRegistered d o then
      .ok { e with interest := e.interest.filter fun r ↦ (r.fd, r.object) ≠ (d, o) }
    else .error .enoent

omit [DecidableEq ο] in
/-- **Nothing is done for a descriptor that is not open.** -/
theorem target_of_not_isOpen (h : ¬ e.IsOpen d) : e.target d = .error .ebadf := by
  have hnone : e.object d = none := by
    rw [object, List.lookup_eq_none_iff]
    intro entry hentry
    exact bne_iff_ne.2 fun heq ↦ h (List.mem_map.2 ⟨entry, hentry, heq.symm⟩)
  unfold target
  rw [hnone]
  split <;> simp_all

omit [DecidableEq ο] in
/-- What the descriptor refers to is what the table has for it. -/
theorem object_eq_some_iff : e.object d = some o ↔ (d, o) ∈ e.table := by
  obtain ⟨self, table, nodup, interest, elsewhere⟩ := e
  show table.lookup d = some o ↔ (d, o) ∈ table
  clear interest elsewhere self
  induction table with
  | nil => exact iff_of_false nofun (List.not_mem_nil)
  | cons entry table ih =>
    obtain ⟨d', o'⟩ := entry
    rw [List.map_cons, List.nodup_cons] at nodup
    rw [List.lookup_cons, List.mem_cons]
    by_cases hd : d = d'
    · subst hd
      have hnot : (d, o) ∉ table := fun hmem ↦ nodup.1 (List.mem_map.2 ⟨_, hmem, rfl⟩)
      simp [hnot, eq_comm]
    · rw [beq_false_of_ne hd, ih nodup.2, Prod.mk.injEq, or_iff_right fun h ↦ hd h.1]

omit [DecidableEq ο] in
theorem mem_table_of_target (h : e.target d = .ok o) : (d, o) ∈ e.table := by
  unfold target at h
  split at h
  next ho => exact object_eq_some_iff.1 (Except.ok.inj h ▸ ho)
  next => cases h

/-! ### Live registrations -/

/-- Every registered descriptor refers to the object it was registered for. -/
def Live (e : Interests δ ο μ) : Prop := ∀ r ∈ e.interest, (r.fd, r.object) ∈ e.table

/-- Every registered descriptor is open. -/
def AllOpen (e : Interests δ ο μ) : Prop := ∀ r ∈ e.interest, e.IsOpen r.fd

omit [DecidableEq δ] [DecidableEq ο] in
theorem Live.allOpen (h : e.Live) : e.AllOpen := fun r hr ↦
  List.mem_map.2 ⟨_, h r hr, rfl⟩

/-- The registrations of the other descriptors. -/
def others (e : Interests δ ο μ) (d : δ) : List (Registration δ ο μ) :=
  e.interest.filter fun r ↦ r.fd ≠ d

/-- What a successful change does: nothing but the registrations of `d` is different, and live
registrations stay live. -/
structure Changes (d : δ) (e e' : Interests δ ο μ) : Prop where
  self_eq : e'.self = e.self
  table_eq : e'.table = e.table
  elsewhere_eq : e'.elsewhere = e.elsewhere
  others_eq : e'.others d = e.others d
  live : e.Live → e'.Live

theorem Changes.of_ctlAdd {e' : Interests δ ο μ} (h : e.ctlAdd d m = .ok e') :
    Changes d e e' := by
  unfold ctlAdd at h
  split at h
  · cases h
  next o ho =>
    split at h
    · cases h
    obtain rfl := Except.ok.inj h
    refine ⟨rfl, rfl, rfl, List.filter_cons_of_neg (by simp), fun hlive r hr ↦ ?_⟩
    obtain rfl | hr := List.mem_cons.1 hr
    · exact mem_table_of_target ho
    · exact hlive r hr

/-- A changed mask is no change of what is registered. -/
theorem update_eq (d : δ) (o : ο) (m : μ) (r : Registration δ ο μ) :
    (r.update d o m).fd = r.fd ∧ (r.update d o m).object = r.object ∧
      (r.fd ≠ d → r.update d o m = r) := by
  unfold Registration.update
  split
  next h => exact ⟨rfl, rfl, fun hne ↦ absurd (Prod.mk.inj h).1 hne⟩
  next => exact ⟨rfl, rfl, fun _ ↦ rfl⟩

theorem Changes.of_ctlMod {e' : Interests δ ο μ} (h : e.ctlMod d m = .ok e') :
    Changes d e e' := by
  unfold ctlMod at h
  split at h
  · cases h
  next o ho =>
    split at h
    next =>
      obtain rfl := Except.ok.inj h
      refine ⟨rfl, rfl, rfl, ?_, fun hlive r hr ↦ ?_⟩
      · have hkeep : ∀ r ∈ e.others d, r.update d o m = r := fun r hr ↦
          (update_eq d o m r).2.2 (of_decide_eq_true (List.mem_filter.1 hr).2)
        show (e.interest.map _).filter _ = e.others d
        rw [List.filter_map]
        refine Eq.trans ?_ ((List.map_congr_left hkeep).trans (List.map_id _))
        exact congrArg _ (List.filter_congr fun r _ ↦ by simp [update_eq])
      · obtain ⟨r, hr', rfl⟩ := List.mem_map.1 hr
        obtain ⟨hfd, hobject, -⟩ := update_eq d o m r
        rw [hfd, hobject]
        exact hlive r hr'
    · cases h

theorem Changes.of_ctlDel {e' : Interests δ ο μ} (h : e.ctlDel d = .ok e') : Changes d e e' := by
  unfold ctlDel at h
  split at h
  · cases h
  next o ho =>
    split at h
    next =>
      obtain rfl := Except.ok.inj h
      refine ⟨rfl, rfl, rfl, ?_, fun hlive r hr ↦ hlive r (List.mem_filter.1 hr).1⟩
      show (e.interest.filter _).filter _ = e.interest.filter _
      rw [List.filter_filter]
      refine List.filter_congr fun r _ ↦ ?_
      by_cases hr : r.fd = d <;> simp [hr]
    · cases h

/-- With the list open, a registered descriptor can be changed, -/
theorem exists_ctlMod (hself : e.self ≠ none) (hobject : e.object d = some o)
    (hregistered : e.IsRegistered d o) (m : μ) : ∃ e', e.ctlMod d m = .ok e' := by
  obtain ⟨self, hself⟩ := Option.ne_none_iff_exists'.1 hself
  have htarget : e.target d = .ok o := by rw [target, hself, hobject]
  rw [ctlMod, htarget]
  exact ⟨_, if_pos hregistered⟩

/-- and deleted. -/
theorem exists_ctlDel (hself : e.self ≠ none) (hobject : e.object d = some o)
    (hregistered : e.IsRegistered d o) : ∃ e', e.ctlDel d = .ok e' := by
  obtain ⟨self, hself⟩ := Option.ne_none_iff_exists'.1 hself
  have htarget : e.target d = .ok o := by rw [target, hself, hobject]
  rw [ctlDel, htarget]
  exact ⟨_, if_pos hregistered⟩

omit [DecidableEq δ] in
/-- When something outside lets go of an object, live registrations stay live. -/
theorem Live.release (h : e.Live) (o : ο) : (e.release o).Live := fun r hr ↦
  h r (List.mem_filter.1 hr).1

/-! ### Closing several descriptors -/

/-- Close the listed descriptors one after the other. -/
def closeAll (e : Interests δ ο μ) (ds : List δ) : Interests δ ο μ := ds.foldl close e

@[simp] theorem closeAll_cons (e : Interests δ ο μ) (d : δ) (ds : List δ) :
    e.closeAll (d :: ds) = (e.close d).closeAll ds := rfl

theorem table_closeAll (e : Interests δ ο μ) (ds : List δ) :
    (e.closeAll ds).table = e.table.filter fun entry ↦ entry.1 ∉ ds := by
  induction ds generalizing e with
  | nil => simp [closeAll]
  | cons d ds ih =>
    rw [closeAll_cons, ih]
    show (e.table.filter _).filter _ = _
    rw [List.filter_filter]
    exact List.filter_congr fun entry _ ↦ by simp [Bool.and_comm]

theorem elsewhere_closeAll (e : Interests δ ο μ) (ds : List δ) :
    (e.closeAll ds).elsewhere = e.elsewhere := by
  induction ds generalizing e with
  | nil => rfl
  | cons d ds ih => exact ih (e.close d)

theorem not_isOpen_closeAll {ds : List δ} (hd : d ∈ ds) : ¬ (e.closeAll ds).IsOpen d := by
  intro hopen
  obtain ⟨entry, hentry, rfl⟩ := List.mem_map.1 hopen
  rw [table_closeAll, List.mem_filter] at hentry
  exact of_decide_eq_true hentry.2 hd

theorem self_close (h : e.self ≠ some d) : (e.close d).self = e.self := if_neg h

theorem self_closeAll {ds : List δ} (h : ∀ d ∈ ds, e.self ≠ some d) :
    (e.closeAll ds).self = e.self := by
  induction ds generalizing e with
  | nil => rfl
  | cons d ds ih =>
    obtain ⟨hd, hds⟩ := List.forall_mem_cons.1 h
    rw [closeAll_cons, ih ((self_close hd).symm ▸ hds), self_close hd]

/-- Closing the list itself closes it for good. -/
theorem self_closeAll_eq_none {ds : List δ} (hd : d ∈ ds) (h : e.self = some d) :
    (e.closeAll ds).self = none := by
  induction ds generalizing e with
  | nil => exact absurd hd List.not_mem_nil
  | cons d' ds ih =>
    rw [closeAll_cons]
    by_cases hd' : e.self = some d'
    · have hnone : (e.close d').self = none := if_pos hd'
      rw [self_closeAll fun d _ ↦ hnone ▸ nofun, hnone]
    · have hmem : d ∈ ds := (List.mem_cons.1 hd).resolve_left fun heq ↦ hd' (heq ▸ h)
      exact ih hmem ((self_close hd').trans h)

/-- What something refers to after some closing, it referred to before. -/
theorem Refers.of_closeAll {ds : List δ} (h : (e.closeAll ds).Refers o) : e.Refers o := by
  unfold Refers at h
  rw [table_closeAll, elsewhere_closeAll] at h
  exact h.imp_left fun h ↦ (List.filter_sublist.map _).subset h

theorem mem_interest_close : r ∈ (e.close d).interest ↔
    e.self ≠ some d ∧ r ∈ e.interest ∧ (e.close d).Refers r.object := by
  by_cases h : e.self = some d
  · simp [close, h]
  · simp [close, h, Refers]

/-- A registration that is left was there, and its object is still referred to. -/
theorem of_mem_interest_closeAll {ds : List δ} (hd : d ∈ ds)
    (h : r ∈ (e.closeAll ds).interest) : r ∈ e.interest ∧ (e.closeAll ds).Refers r.object := by
  induction ds generalizing e d with
  | nil => exact absurd hd List.not_mem_nil
  | cons d' ds ih =>
    rw [closeAll_cons] at h ⊢
    rcases ds with - | ⟨d'', ds⟩
    · exact (mem_interest_close.1 h).2
    · obtain ⟨hr, hrefers⟩ := ih List.mem_cons_self h
      exact ⟨(mem_interest_close.1 hr).2.1, hrefers⟩

/-- A registration whose object is still referred to is left. -/
theorem mem_interest_closeAll {ds : List δ} (hself : ∀ d ∈ ds, e.self ≠ some d)
    (hr : r ∈ e.interest) (h : (e.closeAll ds).Refers r.object) : r ∈ (e.closeAll ds).interest := by
  induction ds generalizing e with
  | nil => exact hr
  | cons d ds ih =>
    obtain ⟨hd, hds⟩ := List.forall_mem_cons.1 hself
    have hr' : r ∈ (e.close d).interest :=
      mem_interest_close.2 ⟨hd, hr, Refers.of_closeAll h⟩
    exact ih ((self_close hd).symm ▸ hds) hr' h

/-- The registrations of these descriptors hold the last references to their objects: nothing else
refers to them, in the process or outside. -/
def LastReferences (e : Interests δ ο μ) (ds : List δ) : Prop :=
  ∀ r ∈ e.interest, r.fd ∈ ds →
    r.object ∉ e.elsewhere ∧ ∀ entry ∈ e.table, entry.2 = r.object → entry.1 ∈ ds

instance (e : Interests δ ο μ) (ds : List δ) : Decidable (e.LastReferences ds) :=
  inferInstanceAs (Decidable (∀ r ∈ _, _ → _ ∧ _))

theorem refers_closeAll_iff {ds : List δ} : (e.closeAll ds).Refers o ↔
    o ∈ e.elsewhere ∨ ∃ entry ∈ e.table, entry.2 = o ∧ entry.1 ∉ ds := by
  unfold Refers
  rw [table_closeAll, elsewhere_closeAll, or_comm]
  refine or_congr_right ⟨fun h ↦ ?_, fun ⟨entry, hentry, ho, hd⟩ ↦ ?_⟩
  · obtain ⟨entry, hentry, rfl⟩ := List.mem_map.1 h
    obtain ⟨hentry, hd⟩ := List.mem_filter.1 hentry
    exact ⟨entry, hentry, rfl, of_decide_eq_true hd⟩
  · exact List.mem_map.2 ⟨entry, List.mem_filter.2 ⟨hentry, decide_eq_true hd⟩, ho⟩

/-- **Closing last references** leaves only live registrations. -/
theorem Live.closeAll {ds : List δ} (h : e.Live) (hlast : e.LastReferences ds) :
    (e.closeAll ds).Live := by
  intro r hr
  rw [table_closeAll, List.mem_filter]
  by_cases hd : r.fd ∈ ds
  · -- the registration would have a reference left, but it held the last ones
    obtain ⟨hr, hrefers⟩ := of_mem_interest_closeAll hd hr
    obtain ⟨helsewhere, htable⟩ := hlast r hr hd
    obtain hmem | ⟨entry, hentry, ho, hnot⟩ := refers_closeAll_iff.1 hrefers
    · exact absurd hmem helsewhere
    · exact absurd (htable entry hentry ho) hnot
  · refine ⟨h r ?_, decide_eq_true hd⟩
    rcases ds with - | ⟨d, ds⟩
    · exact hr
    · exact (of_mem_interest_closeAll List.mem_cons_self hr).1

/-- **Closing with a reference left** leaves a registered descriptor that is not open. -/
theorem not_allOpen_closeAll {ds : List δ} (hself : ∀ d ∈ ds, e.self ≠ some d)
    (hlast : ¬ e.LastReferences ds) : ¬ (e.closeAll ds).AllOpen := by
  intro hopen
  refine hlast fun r hr hd ↦ ?_
  have hnot : ¬ (e.closeAll ds).Refers r.object := fun hrefers ↦
    not_isOpen_closeAll hd (hopen r (mem_interest_closeAll hself hr hrefers))
  rw [refers_closeAll_iff, not_or] at hnot
  refine ⟨hnot.1, fun entry hentry ho ↦ ?_⟩
  by_contra hentryNot
  exact hnot.2 ⟨entry, hentry, ho, hentryNot⟩

end Interests
