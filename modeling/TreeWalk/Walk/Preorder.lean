import TreeWalk.Place
import TreeWalk.Walk

/-!
# The pre-order walk

`Preorder α` keeps a stack of subtrees that are still to be walked, the next one on top. A step takes
the top node off, puts its right child and then its left child on, and hands the node out: the whole
left subtree is then above the right one.
-/

namespace TreeWalk

universe u

/-- A pre-order walk: the nodes whose subtrees are still to be walked, the next one first. -/
structure Preorder (α : Type u) where
  stack : List (Spot α)

namespace Preorder

variable {α : Type u}

def ofSpot (s : Spot α) : Preorder α := ⟨[s]⟩

/-- The walk over the subtree of one node, with places counted from it. -/
def ofNode (n : Node α) : Preorder α := ofSpot ⟨.root, n⟩

def ofTree (t : Tree α) : Preorder α := ⟨(t.spot? .root).toList⟩

/-- The children of a node on top of a stack, the left one first. -/
def pushChildren (s : Spot α) (stack : List (Spot α)) : List (Spot α) :=
  s.left?.toList ++ (s.right?.toList ++ stack)

/-- Hands out the top node, with its children in its place on the stack. -/
def next? (w : Preorder α) : Option (Spot α × Preorder α) :=
  match w.stack with
  | [] => none
  | s :: stack => some (s, ⟨pushChildren s stack⟩)

def work (w : Preorder α) : Nat := Walk.load Spot.size w.stack

theorem load_spot? (p : Place) (t : Tree α) : Walk.load Spot.size (t.spot? p).toList = t.size := by
  cases t with
  | empty => rfl
  | node => simp [Spot.size, Node.size]

theorem work_pushChildren (s : Spot α) (stack : List (Spot α)) :
    (⟨pushChildren s stack⟩ : Preorder α).work + 1 = (⟨s :: stack⟩ : Preorder α).work := by
  simp only [work, pushChildren, Spot.left?, Spot.right?, Walk.load_append, load_spot?, Walk.load_cons]
  simp only [Spot.size, Node.size]
  omega

theorem work_next? {w w' : Preorder α} {s : Spot α} (h : w.next? = some (s, w')) : w'.work + 1 = w.work := by
  obtain ⟨stack⟩ := w
  cases stack with
  | nil => simp [next?] at h
  | cons top below =>
    simp only [next?, Option.some.injEq, Prod.mk.injEq] at h
    obtain ⟨rfl, rfl⟩ := h
    exact work_pushChildren top below

instance : Walk (Preorder α) (Spot α) where
  next? := next?
  work := work
  work_lt h := by have := work_next? h; omega

end Preorder

end TreeWalk
