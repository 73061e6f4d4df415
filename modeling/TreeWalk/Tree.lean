/-!
# Binary trees

* `Tree α` : a binary tree, empty or a value over a left and a right subtree;
* `Node α` : the root of a nonempty tree, with its value and its two subtrees;
* `Tree.root?`, `Node.toTree` : a tree is empty or given by its root, and these two pass between the views;
* `Tree.preorder`, `Tree.inorder`, `Tree.postorder` : the values in the three orders, by recursion. Each order is
  written in front of what comes after it (`Tree.preorderOnto` and so on), so that no list is copied on the way
  up a deep tree; `Tree.preorder_node` and so on give the order of a tree from those of its subtrees;
* `Tree.visit`, `Node.visit` : the values replaced one after another in pre-order by an action that keeps a state.

The functions here follow the structure of the tree. The walks that keep a stack of their own are in
the modules under `TreeWalk.Walk`.
-/

namespace TreeWalk

universe u v

/-- A binary tree: empty, or a value over a left and a right subtree. -/
inductive Tree (α : Type u) where
  | empty
  | node (value : α) (left right : Tree α)
  deriving DecidableEq, Inhabited

/-- A node with the two subtrees below it, each of which may be empty. -/
structure Node (α : Type u) where
  value : α
  left : Tree α
  right : Tree α
  deriving DecidableEq

namespace Tree

variable {α : Type u} {β σ : Type v}

def root? : Tree α → Option (Node α)
  | empty => none
  | node value left right => some ⟨value, left, right⟩

def isEmpty : Tree α → Bool
  | empty => true
  | node .. => false

def size : Tree α → Nat
  | empty => 0
  | node _ left right => 1 + left.size + right.size

/-- The number of nodes on the longest way down from the root. -/
def height : Tree α → Nat
  | empty => 0
  | node _ left right => 1 + max left.height right.height

/-- The same shape with `f` applied to every value. -/
def map (f : α → β) : Tree α → Tree β
  | empty => empty
  | node value left right => node (f value) (left.map f) (right.map f)

/-- The values in pre-order, in front of the list that is given. -/
def preorderOnto (rest : List α) : Tree α → List α
  | empty => rest
  | node value left right => value :: left.preorderOnto (right.preorderOnto rest)

def inorderOnto (rest : List α) : Tree α → List α
  | empty => rest
  | node value left right => left.inorderOnto (value :: right.inorderOnto rest)

def postorderOnto (rest : List α) : Tree α → List α
  | empty => rest
  | node value left right => left.postorderOnto (right.postorderOnto (value :: rest))

/-- The values with each node before its left subtree, and that before its right subtree. -/
def preorder (t : Tree α) : List α := t.preorderOnto []

def inorder (t : Tree α) : List α := t.inorderOnto []

def postorder (t : Tree α) : List α := t.postorderOnto []

/-- Replaces the values one after another in pre-order; each replacement sees the state that the one
before it left. -/
def visit (f : α → StateM σ β) : Tree α → StateM σ (Tree β)
  | empty => pure empty
  | node value left right => do
      let value ← f value
      let left ← left.visit f
      let right ← right.visit f
      pure (node value left right)

@[simp] theorem root?_empty : (empty : Tree α).root? = none := rfl

@[simp] theorem root?_node (value : α) (left right : Tree α) :
    (node value left right).root? = some ⟨value, left, right⟩ := rfl

@[simp] theorem size_empty : (empty : Tree α).size = 0 := rfl

@[simp] theorem size_node (value : α) (left right : Tree α) :
    (node value left right).size = 1 + left.size + right.size := rfl

/-! ## The three orders -/

theorem preorderOnto_append (t : Tree α) (xs ys : List α) :
    t.preorderOnto (xs ++ ys) = t.preorderOnto xs ++ ys := by
  induction t generalizing xs with
  | empty => rfl
  | node value left right ihLeft ihRight => rw [preorderOnto, ihRight, ihLeft, preorderOnto, List.cons_append]

theorem inorderOnto_append (t : Tree α) (xs ys : List α) :
    t.inorderOnto (xs ++ ys) = t.inorderOnto xs ++ ys := by
  induction t generalizing xs with
  | empty => rfl
  | node value left right ihLeft ihRight => rw [inorderOnto, ihRight, ← List.cons_append, ihLeft, inorderOnto]

theorem postorderOnto_append (t : Tree α) (xs ys : List α) :
    t.postorderOnto (xs ++ ys) = t.postorderOnto xs ++ ys := by
  induction t generalizing xs with
  | empty => rfl
  | node value left right ihLeft ihRight =>
    rw [postorderOnto, ← List.cons_append, ihRight, ihLeft, postorderOnto]

theorem preorderOnto_eq (t : Tree α) (rest : List α) : t.preorderOnto rest = t.preorder ++ rest :=
  t.preorderOnto_append [] rest

theorem inorderOnto_eq (t : Tree α) (rest : List α) : t.inorderOnto rest = t.inorder ++ rest :=
  t.inorderOnto_append [] rest

theorem postorderOnto_eq (t : Tree α) (rest : List α) : t.postorderOnto rest = t.postorder ++ rest :=
  t.postorderOnto_append [] rest

@[simp] theorem preorder_empty : (empty : Tree α).preorder = [] := rfl

@[simp] theorem inorder_empty : (empty : Tree α).inorder = [] := rfl

@[simp] theorem postorder_empty : (empty : Tree α).postorder = [] := rfl

@[simp] theorem preorder_node (value : α) (left right : Tree α) :
    (node value left right).preorder = value :: (left.preorder ++ right.preorder) := by
  rw [preorder, preorderOnto, preorderOnto_eq]; rfl

@[simp] theorem inorder_node (value : α) (left right : Tree α) :
    (node value left right).inorder = left.inorder ++ value :: right.inorder := by
  rw [inorder, inorderOnto, inorderOnto_eq]; rfl

@[simp] theorem postorder_node (value : α) (left right : Tree α) :
    (node value left right).postorder = left.postorder ++ (right.postorder ++ [value]) := by
  rw [postorder, postorderOnto, postorderOnto_eq left, postorderOnto_eq right]

end Tree

namespace Node

variable {α : Type u}

def toTree (n : Node α) : Tree α := .node n.value n.left n.right

def leaf (value : α) : Node α := ⟨value, .empty, .empty⟩

/-- A node over the given children, either of which may be absent. -/
def ofChildren (value : α) (left right : Option (Node α)) : Node α :=
  ⟨value, left.elim .empty toTree, right.elim .empty toTree⟩

def hasLeft (n : Node α) : Bool := !n.left.isEmpty

def hasRight (n : Node α) : Bool := !n.right.isEmpty

def isLeaf (n : Node α) : Bool := !n.hasLeft && !n.hasRight

def left? (n : Node α) : Option (Node α) := n.left.root?

def right? (n : Node α) : Option (Node α) := n.right.root?

def size (n : Node α) : Nat := 1 + n.left.size + n.right.size

/-- Replaces the values one after another in pre-order; each replacement sees the state that the one
before it left. -/
def visit {β σ : Type v} (f : α → StateM σ β) (n : Node α) : StateM σ (Node β) := do
  let value ← f n.value
  let left ← n.left.visit f
  let right ← n.right.visit f
  pure ⟨value, left, right⟩

/-- Takes both subtrees away from the node: what is left of it is a leaf. -/
def detach (n : Node α) : Node α × Tree α × Tree α := (leaf n.value, n.left, n.right)

@[simp] theorem root?_toTree (n : Node α) : n.toTree.root? = some n := rfl

@[simp] theorem size_toTree (n : Node α) : n.toTree.size = n.size := rfl

theorem size_pos (n : Node α) : 0 < n.size := by simp only [size]; omega

end Node

theorem Tree.toTree_root? {α : Type u} {t : Tree α} {n : Node α} (h : t.root? = some n) : n.toTree = t := by
  cases t with
  | empty => simp at h
  | node => simp only [root?_node, Option.some.injEq] at h; subst h; rfl

end TreeWalk
