import TreeWalk.Tree

/-!
# Trees of a given shape

Trees that a rule describes: complete ones, and chains that grow from a leaf by one node after another at the
top. The nodes are numbered, and a node holds the label of its number.

* `Tree.complete` : all levels full, with the children of number `i` numbered `2 * i` and `2 * i + 1`;
* `Growth` : how a chain grows, with the number `i` on top of the chain up to `i - 1`;
* `Growth.chain` : the chain up to a number.
-/

namespace TreeWalk

universe u

variable {α : Type u}

/-- The tree with the given number of full levels and the number `i` at its root. -/
def Tree.complete (label : Nat → α) (i : Nat) : Nat → Tree α
  | 0 => .empty
  | levels + 1 =>
      .node (label i) (complete label (2 * i) levels) (complete label (2 * i + 1) levels)

inductive Growth where
  /-- The chain becomes the left child of the new node. -/
  | left
  /-- The chain becomes the right child. -/
  | right
  /-- The chain becomes the left child of an even number and the right child of an odd one. -/
  | zigzag
  /-- The chain becomes the left child, and a leaf with the same number the right child. -/
  | combLeft
  /-- The chain becomes the right child, and a leaf with the same number the left child. -/
  | combRight
  deriving DecidableEq

namespace Growth

def ofName? (name : String) : Option Growth :=
  if name = "left" then some left
  else if name = "right" then some right
  else if name = "zigzag" then some zigzag
  else if name = "comb_left" then some combLeft
  else if name = "comb_right" then some combRight
  else none

/-- The number `i` on top of the chain `t`. -/
def grow (label : Nat → α) (i : Nat) (t : Tree α) : Growth → Tree α
  | left => .node (label i) t .empty
  | right => .node (label i) .empty t
  | zigzag => if i % 2 = 0 then .node (label i) t .empty else .node (label i) .empty t
  | combLeft => .node (label i) t (Node.leaf (label i)).toTree
  | combRight => .node (label i) (Node.leaf (label i)).toTree t

/-- The chain that starts with the leaf number `0` and ends with the number `n` at the top. -/
def chain (label : Nat → α) (n : Nat) (g : Growth) : Tree α :=
  n.fold (fun i _ t => g.grow label (i + 1) t) (Node.leaf (label 0)).toTree

end Growth

end TreeWalk
