import PreforkHttpd.Transition.PartialRun
import PreforkHttpd.Tree.Rotation

/-!
# Rotations one after the other

A rotation finds the parent of its node by the parent field, so a sequence of rotations needs what
every one of them leaves behind: parent fields that are right again. Two of the three fields that a
rotation changes are assigned. The third is the parent field of the node that goes down, whose new
parent is its old child, and `rotate_left` and `rotate_right` both leave it.

So a tree is out of order after its first rotation, whichever it is, and `throughout_intact_iff`
says no more than that: the tree is intact after every call of a sequence if and only if there is no
call.
-/

open LabelledRun LinkedTree

namespace PreforkHttpd

variable {ι : Type} [DecidableEq ι]

/-- A call of one of the two functions. -/
inductive RotationCall (ι : Type)
  | rotateLeft (node : ι)
  | rotateRight (node : ι)

namespace RotationCall

/-- The node of a call. -/
def node : RotationCall ι → ι
  | rotateLeft i | rotateRight i => i

/-- The side of the child that comes up. -/
def side : RotationCall ι → Side
  | rotateLeft _ => .right
  | rotateRight _ => .left

/-- A call with the root that the call before it returned. -/
def step (s : RbMemory ι × Option ι) : RotationCall ι → Option (RbMemory ι × Option ι)
  | rotateLeft i => PreforkHttpd.rotateLeft s.1 (some i) s.2
  | rotateRight i => PreforkHttpd.rotateRight s.1 (some i) s.2

/-- The call is for a node of the current tree, and that node has the child that is to come up. -/
def Applicable (s : RbMemory ι × Option ι) (call : RotationCall ι) : Prop :=
  ∃ t a, Held s.1 s.2 t ∧ a ∈ inorder t ∧ a.1 = call.node ∧ HasChild call.side s.1 a.1

/-- The parent fields are right, and the nodes are in the order of `t`. -/
def Intact (t : BinaryTree (ι × RbData)) (s : RbMemory ι × Option ι) : Prop :=
  ∃ t', Consistent s.1 s.2 t' ∧ inorder t' = inorder t

variable {mem : RbMemory ι} {r : Option ι} {t : BinaryTree (ι × RbData)} {call : RotationCall ι}
  {calls : List (RotationCall ι)}

theorem step_eq (s : RbMemory ι × Option ι) (call : RotationCall ι) :
    step s call = rotate call.side s.1 (some call.node) s.2 := by
  cases call <;> rfl

/-- **Every rotation leaves a parent field behind**, that of the node which went down. -/
theorem exists_step_not_intact (h : Consistent mem r t) (hcall : Applicable (mem, r) call) :
    ∃ s, step (mem, r) call = some s ∧ ∀ t', ¬ Consistent s.1 s.2 t' := by
  obtain ⟨t', a, hheld, ha, hnode, hchild⟩ := hcall
  obtain rfl := h.toHeld.unique hheld
  obtain ⟨fs, b, A, B, C, rfl⟩ := exists_rotation_place h.linked ha hchild
  obtain ⟨mem', r', hrun, hheld', hstale, -⟩ := rotate_spec h
  refine ⟨(mem', r'), ?_, fun t' ht' ↦ ?_⟩
  · rw [step_eq, ← hnode]
    exact hrun
  · -- the tree after the call is known, and its node `a` is below `b`
    obtain rfl := ht'.toHeld.unique hheld'
    have hbelow := (parented_branch.1 (parented_branch.1 ht'.parented.of_plug).2.1).1
    have habove : above fs = some b.1 := Option.some.inj (hstale.symm.trans hbelow)
    have hnodup := nodup_of_plug h.nodup
    cases fs with
    | nil => cases habove
    | cons f fs =>
      have hf : b.1 ∈ frameAddresses (f :: fs) :=
        Option.some.inj habove ▸ List.mem_cons_self
      grind

/-- **When rotations can be composed.** In a sequence of calls, each for a node that has the
required child, the tree is intact after every call if and only if there is no call. -/
theorem throughout_intact_iff (h : Consistent mem r t)
    (hcalls : Along step Applicable (mem, r) calls) :
    Throughout step (Intact t) (mem, r) calls ↔ calls = [] := by
  refine ⟨fun hall ↦ ?_, ?_⟩
  · cases calls with
    | nil => rfl
    | cons call calls =>
      obtain ⟨s, hs, hnot⟩ := exists_step_not_intact h hcalls.1
      have hrun : runFrom step (mem, r) [call] = some s := runFrom_cons_eq_some_iff.2 ⟨s, hs, rfl⟩
      obtain ⟨t', ht', -⟩ := hall [call] s ⟨calls, rfl⟩ hrun
      exact absurd ht' (hnot t')
  · rintro rfl before s hbefore hrun
    obtain rfl := List.prefix_nil.1 hbefore
    obtain rfl := Option.some.inj hrun
    exact ⟨t, h, rfl⟩

/-- One call of `rotate_right` is too many. -/
theorem throughout_intact_iff_rotateRight :
    Along step Applicable (threeNodes, some 0) [.rotateRight 0] ∧
      ¬ Throughout step (Intact threeNodesTree) (threeNodes, some 0) [.rotateRight 0] := by
  have hcalls : Along step Applicable (threeNodes, some 0) [.rotateRight 0] :=
    ⟨⟨threeNodesTree, (0, ⟨0, none⟩), consistent_threeNodes.toHeld, by decide, rfl, _, 1, rfl, rfl⟩,
      fun _ _ ↦ trivial⟩
  refine ⟨hcalls, fun hall ↦ ?_⟩
  cases (throughout_intact_iff consistent_threeNodes hcalls).1 hall

/-- One call of `rotate_left` for the root of the three nodes leaves their parent fields wrong. -/
theorem not_throughout_intact_threeNodes :
    Consistent threeNodes (some 0) threeNodesTree ∧
      Along step Applicable (threeNodes, some 0) [.rotateLeft 0] ∧
      ¬ Throughout step (Intact threeNodesTree) (threeNodes, some 0) [.rotateLeft 0] := by
  have hcall : Applicable (threeNodes, some 0) (.rotateLeft 0) :=
    ⟨threeNodesTree, (0, ⟨0, none⟩), consistent_threeNodes.toHeld, by decide, rfl, _, 2, rfl, rfl⟩
  refine ⟨consistent_threeNodes, ⟨hcall, fun _ _ ↦ trivial⟩, fun hall ↦ ?_⟩
  obtain ⟨s, hs, hnot⟩ := exists_step_not_intact consistent_threeNodes hcall
  obtain ⟨t', ht', -⟩ := hall [.rotateLeft 0] s (List.prefix_refl _)
    (runFrom_cons_eq_some_iff.2 ⟨s, hs, rfl⟩)
  exact hnot t' ht'

end RotationCall

end PreforkHttpd
