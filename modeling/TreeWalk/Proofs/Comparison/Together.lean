import TreeWalk.Proofs.Comparison.Trace

/-!
# The two walks of a comparison end together

Two nodes may have different numbers of nodes below them, and still neither walk of a comparison ends before the other.
As long as the comparison goes on, the two stacks hold subtrees at the same positions: a pair of nodes whose children
differ in presence decides the comparison at once, and otherwise both walks put the same children on.

* `Lockstep.SamePosition` : the same path leads to both nodes, each in its own tree;
* `Lockstep.samePosition_of_more`, `Lockstep.samePosition_of_steps` : a step that does not decide the comparison keeps
  this for the entries of the two stacks, and so does any number of them;
* `Lockstep.exists_last` : a run goes through the states after no step, after one, after two and so on, up to one whose
  step gives the answer;
* `Lockstep.run_eq_of_steps` : from each of them the run comes to the answer of the whole;
* `Located.walks_end_together` : so when an iteration begins, either both walks have a node next, and the answer is "not
  equal" at once if and only if these two differ, or both are at their end, and the answer is "equal". Never is only one
  of them at its end.
-/

namespace TreeWalk

universe u v

variable {α : Type u} {eq : α → α → Bool}

namespace Lockstep

/-- The nodes lie at the end of one path, the first in the tree `s` and the second in the tree `t`. -/
def SamePosition (s t : Tree α) (x y : Spot α) : Prop :=
  ∃ path, s.locate? path = some x ∧ t.locate? path = some y

variable {s t : Tree α} {x y : Spot α} {xs ys : List (Spot α)} {l l' : Lockstep α}

theorem samePosition_root (m n : Node α) : SamePosition m.toTree n.toTree ⟨.root, m⟩ ⟨.root, n⟩ := ⟨[], rfl, rfl⟩

theorem SamePosition.child {c d : Spot α} (h : SamePosition s t x y) (side : Side) (hc : x.child? side = some c)
    (hd : y.child? side = some d) : SamePosition s t c d := by
  obtain ⟨path, hx, hy⟩ := h
  exact ⟨path ++ [side], (Tree.locate?_concat hx side).trans hc, (Tree.locate?_concat hy side).trans hd⟩

/-- Children that are both absent or both present can be put on two stacks. -/
theorem SamePosition.forall₂_child (h : SamePosition s t x y) (side : Side)
    (hchild : (x.child? side).isSome = (y.child? side).isSome) (hrest : List.Forall₂ (SamePosition s t) xs ys) :
    List.Forall₂ (SamePosition s t) ((x.child? side).toList ++ xs) ((y.child? side).toList ++ ys) := by
  cases hc : x.child? side with
  | none =>
    rw [hc, Option.isSome_none, eq_comm, Option.isSome_eq_false_iff, Option.isNone_iff_eq_none] at hchild
    rw [hchild]
    exact hrest
  | some c =>
    rw [hc, Option.isSome_some, eq_comm, Option.isSome_iff_exists] at hchild
    obtain ⟨d, hd⟩ := hchild
    rw [hd]
    exact .cons (h.child side hc hd) hrest

theorem isSome_child?_eq (h : childrenDiffer x y = false) (side : Side) :
    (x.child? side).isSome = (y.child? side).isSome := by
  have hspot : ∀ p (t : Tree α), (t.spot? p).isSome = !t.isEmpty := by
    intro p t
    cases t <;> rfl
  rw [childrenDiffer, Bool.or_eq_false_iff, bne_eq_false_iff_eq, bne_eq_false_iff_eq] at h
  cases side with
  | left => exact (hspot _ _).trans (h.1.trans (hspot _ _).symm)
  | right => exact (hspot _ _).trans (h.2.trans (hspot _ _).symm)

theorem forall₂_pushChildren (h : SamePosition s t x y) (hchildren : childrenDiffer x y = false)
    (hrest : List.Forall₂ (SamePosition s t) xs ys) :
    List.Forall₂ (SamePosition s t) (Preorder.pushChildren x xs) (Preorder.pushChildren y ys) :=
  h.forall₂_child .left (isSome_child?_eq hchildren .left)
    (h.forall₂_child .right (isSome_child?_eq hchildren .right) hrest)

/-- A step that does not decide the comparison keeps the two stacks at the same positions. -/
theorem samePosition_of_more (hstep : l.step eq = .more l')
    (h : List.Forall₂ (SamePosition s t) l.first.stack l.second.stack) :
    List.Forall₂ (SamePosition s t) l'.first.stack l'.second.stack := by
  obtain ⟨⟨xs⟩, ⟨ys⟩, compared⟩ := l
  cases h with
  | nil => simp at hstep
  | cons hxy hrest =>
    rw [step_cons_cons] at hstep
    split_ifs at hstep with hchildren heq
    obtain rfl := Outcome.more.inj hstep
    exact forall₂_pushChildren hxy (Bool.eq_false_iff.2 hchildren) hrest

/-- The first of several steps that do not decide the comparison. -/
theorem exists_more_of_steps_succ {k : Nat} (hsteps : l.steps eq (k + 1) = .more l') :
    ∃ next, l.step eq = .more next ∧ next.steps eq k = .more l' := by
  cases hstep : l.step eq with
  | more next => exact ⟨next, rfl, (steps_succ_of_more hstep k).symm.trans hsteps⟩
  | decided equal compared =>
    rw [steps_succ_of_decided hstep] at hsteps
    cases hsteps

theorem samePosition_of_steps {k : Nat} (hsteps : l.steps eq k = .more l')
    (h : List.Forall₂ (SamePosition s t) l.first.stack l.second.stack) :
    List.Forall₂ (SamePosition s t) l'.first.stack l'.second.stack := by
  induction k generalizing l with
  | zero =>
    obtain rfl := Outcome.more.inj hsteps
    exact h
  | succ k ih =>
    obtain ⟨next, hstep, hrest⟩ := exists_more_of_steps_succ hsteps
    exact ih hrest (samePosition_of_more hstep h)

theorem run_eq_of_more (hstep : l.step eq = .more l') : l.run eq = l'.run eq := by
  rw [run]
  split
  · next h =>
    rw [hstep] at h
    rw [Outcome.more.inj h]
  · next h =>
    rw [hstep] at h
    cases h

/-- The states that a run goes through, and the last of them, whose step gives the answer. -/
theorem exists_last (eq : α → α → Bool) (l : Lockstep α) :
    ∃ n last compared, (∀ k, (∃ l', l.steps eq k = .more l') ↔ k ≤ n) ∧ l.steps eq n = .more last ∧
      last.step eq = .decided (l.run eq).equal compared ∧ (l.run eq).compared = compared.toList := by
  fun_induction run eq l with
  | case1 l l' hstep ih =>
    obtain ⟨n, last, compared, hreached, hlast, hanswer⟩ := ih
    refine ⟨n + 1, last, compared, fun k => ?_, (steps_succ_of_more hstep n).trans hlast, hanswer⟩
    cases k with
    | zero => exact iff_of_true ⟨l, rfl⟩ (Nat.zero_le _)
    | succ k => rw [steps_succ_of_more hstep, hreached, Nat.add_le_add_iff_right]
  | case2 l equal compared hstep =>
    refine ⟨0, l, compared, fun k => ?_, rfl, hstep, rfl⟩
    cases k with
    | zero => exact iff_of_true ⟨l, rfl⟩ (Nat.le_refl 0)
    | succ k =>
      refine iff_of_false ?_ (Nat.not_succ_le_zero k)
      rintro ⟨l', hl'⟩
      rw [steps_succ_of_decided hstep] at hl'
      cases hl'

theorem run_eq_of_steps {k : Nat} (hsteps : l.steps eq k = .more l') : l.run eq = l'.run eq := by
  induction k generalizing l with
  | zero => rw [Outcome.more.inj hsteps]
  | succ k ih =>
    obtain ⟨next, hstep, hrest⟩ := exists_more_of_steps_succ hsteps
    rw [run_eq_of_more hstep, ih hrest]

/-- A pair of nodes gives the answer "not equal" if and only if it differs. -/
theorem exists_decided_false_iff (x y : Spot α) (xs ys : List (Spot α)) (compared : Array (α × α)) :
    (∃ compared', step eq ⟨⟨x :: xs⟩, ⟨y :: ys⟩, compared⟩ = .decided false compared') ↔ differ eq (x, y) = true := by
  rw [step_cons_cons, differ]
  cases childrenDiffer x y <;> cases eq x.value y.value <;> simp

end Lockstep

namespace Located

variable {ι : Type v} [DecidableEq ι]

/-- **The two walks of a comparison end together.** The iterations of a comparison of two different nodes are those
from `0` to `n`, of which the last gives the answer. When one begins, the stacks hold nodes at the same positions:
both walks have a node next, or neither has. -/
theorem walks_end_together (eq : α → α → Bool) {a b : Located ι α} (h : a.isSame b = false) :
    let start := Lockstep.ofNodes a.spot.node b.spot.node
    (∃ n last compared, (∀ k, (∃ l, start.steps eq k = .more l) ↔ k ≤ n) ∧ start.steps eq n = .more last ∧
      last.step eq = .decided (a.compare eq b).equal compared ∧ (a.compare eq b).compared = compared.toList) ∧
    ∀ k l, start.steps eq k = .more l →
      a.compare eq b = l.run eq ∧ l.first.stack.length = l.second.stack.length ∧
      List.Forall₂ (Lockstep.SamePosition a.spot.node.toTree b.spot.node.toTree) l.first.stack l.second.stack ∧
      ((∃ x first y second, l.first.next? = some (x, first) ∧ l.second.next? = some (y, second) ∧
          ((∃ compared, l.step eq = .decided false compared) ↔ Lockstep.differ eq (x, y) = true)) ∨
        l.first.next? = none ∧ l.second.next? = none ∧ l.step eq = .decided true l.compared) := by
  intro start
  have hrun : a.compare eq b = start.run eq := compare_of_not_same h
  refine ⟨?_, fun k l hl => ?_⟩
  · rw [hrun]
    exact Lockstep.exists_last eq start
  · have hpositions : List.Forall₂ (Lockstep.SamePosition a.spot.node.toTree b.spot.node.toTree)
        l.first.stack l.second.stack :=
      Lockstep.samePosition_of_steps hl (.cons (Lockstep.samePosition_root _ _) .nil)
    refine ⟨hrun.trans (Lockstep.run_eq_of_steps hl), hpositions.length_eq, hpositions, ?_⟩
    obtain ⟨⟨xs⟩, ⟨ys⟩, compared⟩ := l
    cases hpositions with
    | nil => exact Or.inr ⟨rfl, rfl, rfl⟩
    | cons _ _ => exact Or.inl ⟨_, _, _, _, rfl, rfl, Lockstep.exists_decided_false_iff _ _ _ _ _⟩

/-- Four nodes against three: after two iterations, both walks have the right child next, which has a child of its own
in the first tree only. -/
theorem walks_end_together_right :
    let eq : Nat → Nat → Bool := fun m n => m == n
    let a : Located Nat Nat := ⟨0, ⟨.root, ⟨1, .node 2 .empty .empty, .node 3 (.node 4 .empty .empty) .empty⟩⟩⟩
    let b : Located Nat Nat := ⟨1, ⟨.root, ⟨1, .node 2 .empty .empty, .node 3 .empty .empty⟩⟩⟩
    let x : Spot Nat := ⟨Place.root.right, ⟨3, .node 4 .empty .empty, .empty⟩⟩
    let y : Spot Nat := ⟨Place.root.right, ⟨3, .empty, .empty⟩⟩
    let l : Lockstep Nat := ⟨⟨[x]⟩, ⟨[y]⟩, #[(1, 1), (2, 2)]⟩
    a.isSame b = false ∧ (Lockstep.ofNodes a.spot.node b.spot.node).steps eq 2 = .more l ∧
      Lockstep.SamePosition a.spot.node.toTree b.spot.node.toTree x y ∧
      ∃ compared, l.step eq = .decided false compared := by
  intro eq a b x y l
  have hab : a.isSame b = false := by decide
  have hl : (Lockstep.ofNodes a.spot.node b.spot.node).steps eq 2 = .more l := rfl
  obtain ⟨-, -, hpositions, ⟨x', first, y', second, hx, hy, hdecided⟩ | ⟨hnone, -, -⟩⟩ :=
    (walks_end_together eq hab).2 2 l hl
  · obtain ⟨rfl, rfl⟩ := Prod.mk.inj (Option.some.inj hx)
    obtain ⟨rfl, rfl⟩ := Prod.mk.inj (Option.some.inj hy)
    exact ⟨hab, hl, (List.forall₂_cons.1 hpositions).1, hdecided.2 (by decide)⟩
  · cases hnone

end Located

end TreeWalk
