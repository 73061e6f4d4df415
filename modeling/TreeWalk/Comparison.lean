import TreeWalk.Walk.Preorder

/-!
# Comparing trees

Two nodes are compared by walking both in pre-order at once: at every pair of nodes first whether both or
neither have a left child, then the same for the right child, then the values. The first difference
decides. A node is equal to itself without a look at any value, so the answer depends on whether the two
are one and the same node: a `Located` node says to which tree it belongs and where in it it is.

* `Comparison` : the answer, with the pairs of values that were compared on the way;
* `Lockstep`, `Lockstep.step`, `Lockstep.run` : the walk over both at once;
* `Located.compare`, `Located.compareAbsent` : two nodes, either of which may be absent in the second;
* `Tree.compare` : the comparison by recursion, values first, then left subtrees, then right subtrees,
  which knows nothing of identity; `Tree.compare_node_node` gives it from those of the subtrees.

How values are compared is left open: the test need not hold between a value and itself.
-/

namespace TreeWalk

universe u v

/-- An answer, and the pairs of values that were compared to find it, in order. -/
structure Comparison (α : Type u) where
  equal : Bool
  compared : List (α × α)

/-- Two pre-order walks that go forward together, and the pairs of values compared so far. -/
structure Lockstep (α : Type u) where
  first : Preorder α
  second : Preorder α
  compared : Array (α × α)

inductive Lockstep.Outcome (α : Type u) where
  | more (l : Lockstep α)
  | decided (equal : Bool) (compared : Array (α × α))

namespace Lockstep

variable {α : Type u}

def ofNodes (a b : Node α) : Lockstep α := ⟨.ofNode a, .ofNode b, #[]⟩

/-- Takes a node from each walk and compares their children's presence and then their values. -/
def step (eq : α → α → Bool) (l : Lockstep α) : Outcome α :=
  match l.first.next?, l.second.next? with
  | some (a, first), some (b, second) =>
      if a.node.hasLeft != b.node.hasLeft || a.node.hasRight != b.node.hasRight then
        .decided false l.compared
      else
        let compared := l.compared.push (a.value, b.value)
        if eq a.value b.value then .more ⟨first, second, compared⟩ else .decided false compared
  | none, none => .decided true l.compared
  | _, _ => .decided false l.compared

theorem work_of_more {eq : α → α → Bool} {l l' : Lockstep α} (h : l.step eq = .more l') :
    l'.first.work + 1 = l.first.work := by
  simp only [step] at h
  split at h
  · next ha _ =>
    split at h
    · simp at h
    · split at h
      · simp only [Outcome.more.injEq] at h
        subst h
        exact Preorder.work_next? ha
      · simp at h
  · simp at h
  · simp at h

def run (eq : α → α → Bool) (l : Lockstep α) : Comparison α :=
  match _h : l.step eq with
  | .more l' => run eq l'
  | .decided equal compared => ⟨equal, compared.toList⟩
termination_by l.first.work
decreasing_by have := work_of_more ‹_›; omega

end Lockstep

/-- A node of one of several trees: `owner` tells the trees apart, and the place the nodes of each. -/
structure Located (ι : Type v) (α : Type u) where
  owner : ι
  spot : Spot α

/-- The root of the tree that `i` names, if it has one. -/
def Tree.located? {ι : Type v} {α : Type u} (i : ι) (t : Tree α) : Option (Located ι α) :=
  (t.spot? .root).map (Located.mk i)

namespace Located

variable {ι : Type v} {α : Type u}

def isSame [DecidableEq ι] (a b : Located ι α) : Bool :=
  decide (a.owner = b.owner) && decide (a.spot.place = b.spot.place)

/-- Compares two nodes with all below them. A node is equal to itself at once. -/
def compare [DecidableEq ι] (eq : α → α → Bool) (a b : Located ι α) : Comparison α :=
  if a.isSame b then ⟨true, []⟩ else (Lockstep.ofNodes a.spot.node b.spot.node).run eq

/-- Compares two nodes that may be absent: only absence is equal to absence. -/
def compareAbsent [DecidableEq ι] (eq : α → α → Bool) :
    Option (Located ι α) → Option (Located ι α) → Comparison α
  | some a, some b => a.compare eq b
  | none, none => ⟨true, []⟩
  | _, _ => ⟨false, []⟩

end Located

namespace Tree

variable {α : Type u}

/-- Compares two trees by recursion: the values, then the left subtrees, then the right subtrees, up to the
first difference. The pairs of values are added to those compared before. -/
def compareOnto (eq : α → α → Bool) (compared : Array (α × α)) : Tree α → Tree α → Bool × Array (α × α)
  | empty, empty => (true, compared)
  | node a left right, node b left' right' =>
      let compared := compared.push (a, b)
      if eq a b then
        match left.compareOnto eq compared left' with
        | (true, compared) => right.compareOnto eq compared right'
        | (false, compared) => (false, compared)
      else (false, compared)
  | _, _ => (false, compared)

def compare (eq : α → α → Bool) (s t : Tree α) : Comparison α :=
  let (equal, compared) := s.compareOnto eq #[] t
  ⟨equal, compared.toList⟩

theorem compareOnto_append (eq : α → α → Bool) (xs ys : Array (α × α)) (s t : Tree α) :
    s.compareOnto eq (xs ++ ys) t = ((s.compareOnto eq ys t).1, xs ++ (s.compareOnto eq ys t).2) := by
  induction s generalizing ys t with
  | empty => cases t <;> rfl
  | node a left right ihLeft ihRight =>
    cases t with
    | empty => rfl
    | node b left' right' =>
      simp only [compareOnto, ← Array.append_push]
      split
      · rw [ihLeft]
        rcases left.compareOnto eq (ys.push (a, b)) left' with ⟨_ | _, zs⟩
        · rfl
        · exact ihRight zs right'
      · rfl

theorem compareOnto_eq (eq : α → α → Bool) (compared : Array (α × α)) (s t : Tree α) :
    s.compareOnto eq compared t = ((s.compare eq t).equal, compared ++ (s.compare eq t).compared.toArray) := by
  have h := compareOnto_append eq compared #[] s t
  rwa [Array.append_empty] at h

@[simp] theorem compare_empty_empty (eq : α → α → Bool) : (empty : Tree α).compare eq empty = ⟨true, []⟩ := rfl

@[simp] theorem compare_empty_node (eq : α → α → Bool) (b : α) (left right : Tree α) :
    empty.compare eq (node b left right) = ⟨false, []⟩ := rfl

@[simp] theorem compare_node_empty (eq : α → α → Bool) (a : α) (left right : Tree α) :
    (node a left right).compare eq empty = ⟨false, []⟩ := rfl

theorem compare_node_node (eq : α → α → Bool) (a b : α) (left right left' right' : Tree α) :
    (node a left right).compare eq (node b left' right') =
      if eq a b then
        let l := left.compare eq left'
        if l.equal then
          let r := right.compare eq right'
          ⟨r.equal, (a, b) :: (l.compared ++ r.compared)⟩
        else ⟨false, (a, b) :: l.compared⟩
      else ⟨false, [(a, b)]⟩ := by
  cases h : eq a b with
  | false => simp [compare, compareOnto, h]
  | true =>
    rw [compare, compareOnto]
    simp only [h, if_true, compareOnto_eq eq _ left]
    cases (left.compare eq left').equal <;> simp [compareOnto_eq eq _ right]

end Tree

end TreeWalk
