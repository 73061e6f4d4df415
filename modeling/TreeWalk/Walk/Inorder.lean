import TreeWalk.Place
import TreeWalk.Walk

/-!
# The in-order walk

`Inorder α` keeps a stack of nodes whose left subtrees are done. A step takes the top node off, goes
down the left edge of its right subtree, putting every node there on the stack, and hands the node
out. What is still to come is therefore, from the top of the stack down, each node followed by its
right subtree.
-/

namespace TreeWalk

universe u

/-- An in-order walk: the nodes that are next once their left subtrees are done, the next one first. -/
structure Inorder (α : Type u) where
  stack : List (Spot α)

namespace Inorder

variable {α : Type u}

/-- Puts the root of a tree, its left child, the left child of that and so on onto a stack. The tree
lies at the place `p`. -/
def pushLeftEdge (stack : List (Spot α)) (p : Place) : Tree α → List (Spot α)
  | .empty => stack
  | .node value left right => pushLeftEdge (⟨p, ⟨value, left, right⟩⟩ :: stack) p.left left

def ofSpot (s : Spot α) : Inorder α := ⟨pushLeftEdge [] s.place s.node.toTree⟩

def ofTree (t : Tree α) : Inorder α := ⟨pushLeftEdge [] .root t⟩

/-- Hands out the top node, and goes down the left edge of its right subtree. -/
def next? (w : Inorder α) : Option (Spot α × Inorder α) :=
  match w.stack with
  | [] => none
  | s :: stack => some (s, ⟨pushLeftEdge stack s.place.right s.node.right⟩)

/-- What a node on the stack stands for: itself and its right subtree. -/
def weight (s : Spot α) : Nat := 1 + s.node.right.size

def work (w : Inorder α) : Nat := Walk.load weight w.stack

theorem work_pushLeftEdge (stack : List (Spot α)) (p : Place) (t : Tree α) :
    (⟨pushLeftEdge stack p t⟩ : Inorder α).work = t.size + (⟨stack⟩ : Inorder α).work := by
  induction t generalizing stack p with
  | empty => simp [pushLeftEdge]
  | node value left right ihLeft _ =>
    rw [pushLeftEdge, ihLeft]
    simp only [work, Walk.load_cons, weight, Tree.size_node]
    omega

theorem work_next? {w w' : Inorder α} {s : Spot α} (h : w.next? = some (s, w')) : w'.work + 1 = w.work := by
  obtain ⟨stack⟩ := w
  cases stack with
  | nil => simp [next?] at h
  | cons top below =>
    simp only [next?, Option.some.injEq, Prod.mk.injEq] at h
    obtain ⟨rfl, rfl⟩ := h
    rw [work_pushLeftEdge]
    simp only [work, Walk.load_cons, weight]
    omega

instance : Walk (Inorder α) (Spot α) where
  next? := next?
  work := work
  work_lt h := by have := work_next? h; omega

end Inorder

end TreeWalk
