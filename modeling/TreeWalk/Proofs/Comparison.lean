import Mathlib.Data.List.Forall2
import TreeWalk.Comparison
import TreeWalk.Proofs.Tree.Spots

/-!
# What the comparison of two trees decides

Two trees agree (`Tree.Agree`) when the same paths lead to nodes in both and the values at the end of each path pass
the test. No law is asked of the test, so a tree need not agree with itself.

* `Tree.compare_equal_iff` : the recursive comparison decides agreement;
* `Lockstep.run_equal_iff` : so does the lockstep, of whatever is on the two stacks. Nodes whose children differ in
  presence do not agree; where they do not differ, both walks put as many subtrees on their stacks;
* `Lockstep.exists_steps_of_run` : the lockstep ends, after at most one step for each node of the first stack and one
  more;
* `Located.compare_equal_iff_agree` : so the comparison of two different nodes, or of two different trees, says
  whether they agree, and this is what the recursive comparison says.
-/

namespace TreeWalk

universe u v

namespace Tree

variable {α : Type u}

/-! ## Agreement -/

/-- The two trees have the same shape, and the values at the end of every path pass the test. -/
structure Agree (eq : α → α → Bool) (s t : Tree α) : Prop where
  sameShape : s.SameShape t
  eq_values : ∀ path a b, s.valueAt? path = some a → t.valueAt? path = some b → eq a b = true

variable {eq : α → α → Bool}

theorem agree_empty_empty : (empty : Tree α).Agree eq empty := ⟨fun _ => rfl, fun _ _ _ h => by simp at h⟩

theorem not_agree_empty_node (b : α) (left right : Tree α) : ¬ empty.Agree eq (node b left right) := fun h => by
  simpa using h.sameShape []

theorem not_agree_node_empty (a : α) (left right : Tree α) : ¬ (node a left right).Agree eq empty := fun h => by
  simpa using h.sameShape []

theorem agree_node_node (a b : α) (left right left' right' : Tree α) :
    (node a left right).Agree eq (node b left' right') ↔
      eq a b = true ∧ left.Agree eq left' ∧ right.Agree eq right' := by
  constructor
  · rintro ⟨hshape, hvalues⟩
    obtain ⟨hleft, hright⟩ := (sameShape_node_node ..).1 hshape
    refine ⟨hvalues [] a b rfl rfl, ⟨hleft, fun path x y hx hy => ?_⟩, ⟨hright, fun path x y hx hy => ?_⟩⟩
    · exact hvalues (.left :: path) x y (by rwa [valueAt?_left]) (by rwa [valueAt?_left])
    · exact hvalues (.right :: path) x y (by rwa [valueAt?_right]) (by rwa [valueAt?_right])
  · rintro ⟨hroot, hleft, hright⟩
    refine ⟨(sameShape_node_node ..).2 ⟨hleft.sameShape, hright.sameShape⟩, ?_⟩
    rintro (_ | ⟨_ | _, path⟩) x y hx hy
    · rw [valueAt?_nil, Option.some.injEq] at hx hy
      rwa [← hx, ← hy]
    · exact hleft.eq_values path x y (by rwa [valueAt?_left] at hx) (by rwa [valueAt?_left] at hy)
    · exact hright.eq_values path x y (by rwa [valueAt?_right] at hx) (by rwa [valueAt?_right] at hy)

theorem Agree.isEmpty_eq {s t : Tree α} (h : s.Agree eq t) : s.isEmpty = t.isEmpty := h.sameShape.isEmpty_eq

theorem compare_equal_iff (s t : Tree α) : (s.compare eq t).equal = true ↔ s.Agree eq t := by
  induction s generalizing t with
  | empty =>
    cases t with
    | empty => simp [agree_empty_empty]
    | node b left right => simp [not_agree_empty_node]
  | node a left right ihLeft ihRight =>
    cases t with
    | empty => simp [not_agree_node_empty]
    | node b left' right' =>
      rw [agree_node_node, ← ihLeft, ← ihRight, compare_node_node]
      cases eq a b <;> cases hl : (left.compare eq left').equal <;> simp [hl]

end Tree

namespace Lockstep

variable {α : Type u} {eq : α → α → Bool}

/-! ## One step -/

/-- The children's presence differs between two nodes. -/
def childrenDiffer (x y : Spot α) : Bool := x.node.hasLeft != y.node.hasLeft || x.node.hasRight != y.node.hasRight

@[simp] theorem step_nil_nil (compared : Array (α × α)) : step eq ⟨⟨[]⟩, ⟨[]⟩, compared⟩ = .decided true compared := rfl

@[simp] theorem step_cons_nil (x : Spot α) (xs : List (Spot α)) (compared : Array (α × α)) :
    step eq ⟨⟨x :: xs⟩, ⟨[]⟩, compared⟩ = .decided false compared := rfl

@[simp] theorem step_nil_cons (y : Spot α) (ys : List (Spot α)) (compared : Array (α × α)) :
    step eq ⟨⟨[]⟩, ⟨y :: ys⟩, compared⟩ = .decided false compared := rfl

theorem step_cons_cons (x y : Spot α) (xs ys : List (Spot α)) (compared : Array (α × α)) :
    step eq ⟨⟨x :: xs⟩, ⟨y :: ys⟩, compared⟩ =
      if childrenDiffer x y then .decided false compared
      else if eq x.value y.value then
        .more ⟨⟨Preorder.pushChildren x xs⟩, ⟨Preorder.pushChildren y ys⟩, compared.push (x.value, y.value)⟩
      else .decided false (compared.push (x.value, y.value)) := rfl

/-! ## Stacks that agree -/

def SpotsAgree (eq : α → α → Bool) (x y : Spot α) : Prop := x.node.toTree.Agree eq y.node.toTree

theorem spotsAgree_iff (x y : Spot α) : SpotsAgree eq x y ↔
    eq x.value y.value = true ∧ x.node.left.Agree eq y.node.left ∧ x.node.right.Agree eq y.node.right :=
  Tree.agree_node_node ..

theorem not_spotsAgree_of_childrenDiffer {x y : Spot α} (h : childrenDiffer x y = true) : ¬ SpotsAgree eq x y := by
  intro hxy
  obtain ⟨-, hleft, hright⟩ := (spotsAgree_iff x y).1 hxy
  unfold childrenDiffer Node.hasLeft Node.hasRight at h
  rw [hleft.isEmpty_eq, hright.isEmpty_eq] at h
  simp at h

/-- What the stacks of the two walks hold agrees, entry by entry. -/
def StacksAgree (eq : α → α → Bool) (xs ys : List (Spot α)) : Prop := List.Forall₂ (SpotsAgree eq) xs ys

theorem stacksAgree_cons (x y : Spot α) (xs ys : List (Spot α)) :
    StacksAgree eq (x :: xs) (y :: ys) ↔ SpotsAgree eq x y ∧ StacksAgree eq xs ys :=
  List.forall₂_cons

/-- Subtrees that are both absent or both present can be put on two stacks. -/
theorem stacksAgree_spot? {s t : Tree α} (h : s.isEmpty = t.isEmpty) (p q : Place) (xs ys : List (Spot α)) :
    StacksAgree eq ((s.spot? p).toList ++ xs) ((t.spot? q).toList ++ ys) ↔ s.Agree eq t ∧ StacksAgree eq xs ys := by
  cases s with
  | empty =>
    cases t with
    | empty => exact (and_iff_right Tree.agree_empty_empty).symm
    | node b left right => cases h
  | node a left right =>
    cases t with
    | empty => cases h
    | node b left' right' => exact stacksAgree_cons ..

/-- Two nodes agree, and all below them on the stacks, if their values pass the test and the stacks with their
children in their place agree. -/
theorem stacksAgree_pushChildren {x y : Spot α} (h : childrenDiffer x y = false) (xs ys : List (Spot α)) :
    eq x.value y.value = true ∧ StacksAgree eq (Preorder.pushChildren x xs) (Preorder.pushChildren y ys) ↔
      StacksAgree eq (x :: xs) (y :: ys) := by
  have hchildren : x.node.left.isEmpty = y.node.left.isEmpty ∧ x.node.right.isEmpty = y.node.right.isEmpty := by
    simpa [childrenDiffer, Node.hasLeft, Node.hasRight] using h
  have hpush : StacksAgree eq (Preorder.pushChildren x xs) (Preorder.pushChildren y ys) ↔
      x.node.left.Agree eq y.node.left ∧ x.node.right.Agree eq y.node.right ∧ StacksAgree eq xs ys := by
    unfold Preorder.pushChildren Spot.left? Spot.right?
    rw [stacksAgree_spot? hchildren.1, stacksAgree_spot? hchildren.2]
  rw [hpush, stacksAgree_cons, spotsAgree_iff, and_assoc, and_assoc]

/-- A step after which the comparison goes on keeps whether the stacks agree. -/
theorem stacksAgree_of_more {l l' : Lockstep α} (h : l.step eq = .more l') :
    StacksAgree eq l'.first.stack l'.second.stack ↔ StacksAgree eq l.first.stack l.second.stack := by
  obtain ⟨⟨_ | ⟨x, xs⟩⟩, ⟨_ | ⟨y, ys⟩⟩, compared⟩ := l
  · simp at h
  · simp at h
  · simp at h
  · rw [step_cons_cons] at h
    split_ifs at h with hd he
    rw [Outcome.more.injEq] at h
    rw [← h, ← stacksAgree_pushChildren (Bool.not_eq_true _ ▸ hd)]
    exact (and_iff_right he).symm

/-- A step that decides the comparison gives the answer whether the stacks agree. -/
theorem stacksAgree_of_decided {l : Lockstep α} {equal : Bool} {compared : Array (α × α)}
    (h : l.step eq = .decided equal compared) :
    equal = true ↔ StacksAgree eq l.first.stack l.second.stack := by
  obtain ⟨⟨_ | ⟨x, xs⟩⟩, ⟨_ | ⟨y, ys⟩⟩, before⟩ := l
  · rw [step_nil_nil, Outcome.decided.injEq] at h
    simp [← h.1, StacksAgree]
  · rw [step_nil_cons, Outcome.decided.injEq] at h
    simp [← h.1, StacksAgree]
  · rw [step_cons_nil, Outcome.decided.injEq] at h
    simp [← h.1, StacksAgree]
  · rw [step_cons_cons] at h
    split_ifs at h with hd he
    · rw [Outcome.decided.injEq] at h
      simp [← h.1, stacksAgree_cons, not_spotsAgree_of_childrenDiffer hd]
    · rw [Outcome.decided.injEq] at h
      simp [← h.1, stacksAgree_cons, spotsAgree_iff, he]

/-- The lockstep decides whether the stacks of the two walks agree. -/
theorem run_equal_iff (l : Lockstep α) :
    (l.run eq).equal = true ↔ StacksAgree eq l.first.stack l.second.stack := by
  fun_induction run eq l with
  | case1 l l' h ih => rw [ih, stacksAgree_of_more h]
  | case2 l equal compared h => exact stacksAgree_of_decided h

theorem run_ofNodes_equal_iff (m n : Node α) :
    ((ofNodes m n).run eq).equal = true ↔ m.toTree.Agree eq n.toTree := by
  rw [run_equal_iff]
  exact (stacksAgree_cons ..).trans (and_iff_left List.Forall₂.nil)

/-! ## The number of steps -/

/-- What `n` steps come to. After a decision there are no more steps. -/
def steps (eq : α → α → Bool) : Nat → Lockstep α → Outcome α
  | 0, l => .more l
  | n + 1, l => match l.step eq with
    | .more l' => steps eq n l'
    | .decided equal compared => .decided equal compared

theorem steps_succ_of_more {l l' : Lockstep α} (h : l.step eq = .more l') (n : Nat) :
    l.steps eq (n + 1) = l'.steps eq n := by
  rw [steps, h]

theorem steps_succ_of_decided {l : Lockstep α} {equal : Bool} {compared : Array (α × α)}
    (h : l.step eq = .decided equal compared) (n : Nat) : l.steps eq (n + 1) = .decided equal compared := by
  rw [steps, h]

/-- The answer is found after at most as many steps as the first walk has nodes, and one more. -/
theorem exists_steps_of_run (eq : α → α → Bool) (l : Lockstep α) : ∃ n compared, n ≤ l.first.work + 1 ∧
    l.steps eq n = .decided (l.run eq).equal compared ∧ (l.run eq).compared = compared.toList := by
  fun_induction run eq l with
  | case1 l l' h ih =>
    obtain ⟨n, compared, hn, hsteps, hcompared⟩ := ih
    have hwork := work_of_more h
    exact ⟨n + 1, compared, by omega, (steps_succ_of_more h n).trans hsteps, hcompared⟩
  | case2 l equal compared h => exact ⟨1, compared, by omega, steps_succ_of_decided h 0, rfl⟩

end Lockstep

/-! ## Nodes and trees -/

namespace Located

variable {ι : Type v} {α : Type u} [DecidableEq ι] {eq : α → α → Bool}

theorem compare_of_not_same {a b : Located ι α} (h : a.isSame b = false) :
    a.compare eq b = (Lockstep.ofNodes a.spot.node b.spot.node).run eq := by
  unfold compare
  rw [h]
  rfl

/-- **Comparison decides agreement.** For two nodes that are not one and the same the lockstep ends, and says whether
they agree with all below them, as the recursion does. Two different trees compare as their roots do, and an empty
tree is equal only to an empty one. -/
theorem compare_equal_iff_agree (eq : α → α → Bool) {a b : Located ι α} (h : a.isSame b = false) {i j : ι}
    (hij : i ≠ j) (s t : Tree α) :
    ((∃ n compared, n ≤ a.spot.size + 1 ∧ (Lockstep.ofNodes a.spot.node b.spot.node).steps eq n =
        .decided (a.compare eq b).equal compared) ∧
      ((a.compare eq b).equal = true ↔ a.spot.node.toTree.Agree eq b.spot.node.toTree) ∧
      (a.compare eq b).equal = (a.spot.node.toTree.compare eq b.spot.node.toTree).equal) ∧
    ((compareAbsent eq (s.located? i) (t.located? j)).equal = (match s.root?, t.root? with
        | none, none => true
        | some m, some n => (compare eq ⟨i, ⟨.root, m⟩⟩ ⟨j, ⟨.root, n⟩⟩).equal
        | _, _ => false) ∧
      ((compareAbsent eq (s.located? i) (t.located? j)).equal = true ↔ s.Agree eq t) ∧
      (compareAbsent eq (s.located? i) (t.located? j)).equal = (s.compare eq t).equal) := by
  have hnodes : ∀ {c d : Located ι α}, c.isSame d = false →
      ((c.compare eq d).equal = true ↔ c.spot.node.toTree.Agree eq d.spot.node.toTree) := by
    intro c d hcd
    rw [compare_of_not_same hcd, Lockstep.run_ofNodes_equal_iff]
  have htrees : (compareAbsent eq (s.located? i) (t.located? j)).equal = true ↔ s.Agree eq t := by
    cases s with
    | empty =>
      cases t with
      | empty => exact iff_of_true rfl Tree.agree_empty_empty
      | node b left right => exact iff_of_false Bool.false_ne_true (Tree.not_agree_empty_node b left right)
    | node a left right =>
      cases t with
      | empty => exact iff_of_false Bool.false_ne_true (Tree.not_agree_node_empty a left right)
      | node b left' right' => exact hnodes (by simp [isSame, hij])
  have hsteps : ∃ n compared, n ≤ a.spot.size + 1 ∧ (Lockstep.ofNodes a.spot.node b.spot.node).steps eq n =
      .decided (a.compare eq b).equal compared := by
    obtain ⟨n, compared, hn, hsteps, -⟩ := Lockstep.exists_steps_of_run eq (.ofNodes a.spot.node b.spot.node)
    rw [compare_of_not_same h]
    exact ⟨n, compared, hn, hsteps⟩
  have hnodesRec : (a.compare eq b).equal = (a.spot.node.toTree.compare eq b.spot.node.toTree).equal := by
    rw [Bool.eq_iff_iff, hnodes h, Tree.compare_equal_iff]
  have htreesRec : (compareAbsent eq (s.located? i) (t.located? j)).equal = (s.compare eq t).equal := by
    rw [Bool.eq_iff_iff, htrees, Tree.compare_equal_iff]
  refine ⟨⟨hsteps, hnodes h, hnodesRec⟩, ?_, htrees, htreesRec⟩
  cases s <;> cases t <;> rfl

/-- A test that no `0` passes, applied to the two children of a node, which hold the same values in different shapes, to
two trees that are alike, and to a tree with a `0` and its like. -/
theorem compare_equal_iff_agree_zero :
    let eq : Nat → Nat → Bool := fun a b => a != 0 && a == b
    let a : Located Nat Nat := ⟨0, ⟨Place.root.left, ⟨1, .node 2 .empty .empty, .empty⟩⟩⟩
    let b : Located Nat Nat := ⟨0, ⟨Place.root.right, ⟨1, .empty, .node 2 .empty .empty⟩⟩⟩
    let t : Tree Nat := .node 3 (.node 4 .empty .empty) .empty
    let z : Tree Nat := .node 3 (.node 0 .empty .empty) .empty
    a.isSame b = false ∧ 0 ≠ 1 ∧ (a.compare eq b).equal = false ∧
      (compareAbsent eq (t.located? 0) (t.located? 1)).equal = true ∧
      (compareAbsent eq (z.located? 0) (z.located? 1)).equal = false := by
  intro eq a b t z
  have hab : a.isSame b = false := by decide
  have hij : (0 : Nat) ≠ 1 := by decide
  refine ⟨hab, hij, ?_, ?_, ?_⟩
  · exact (compare_equal_iff_agree eq hab hij t t).1.2.2.trans (by decide)
  · exact (compare_equal_iff_agree eq hab hij t t).2.2.2.trans (by decide)
  · exact (compare_equal_iff_agree eq hab hij z z).2.2.2.trans (by decide)

end Located

end TreeWalk
