import TreeWalk.Walk.Inorder
import TreeWalk.Walk.Postorder
import TreeWalk.Walk.Preorder

/-!
# Walks in any of the three orders

`Order` names the three orders, and `OrderedWalk` is a walk in one of them.
-/

namespace TreeWalk

universe u

/-- The three orders in which the nodes of a tree are walked. -/
inductive Order where
  | preorder
  | inorder
  | postorder
  deriving DecidableEq

def Order.ofName? (name : String) : Option Order :=
  if name = "pre" then some preorder
  else if name = "in" then some inorder
  else if name = "post" then some postorder
  else none

/-- The order named for a whole tree, where a further name means the order in which the tree hands out its
nodes of its own accord, which is the pre-order. -/
def Order.ofTreeName? (name : String) : Option Order := if name = "ref" then some preorder else ofName? name

/-- A walk in one of the three orders. -/
inductive OrderedWalk (α : Type u) where
  | preorder (w : Preorder α)
  | inorder (w : Inorder α)
  | postorder (w : Postorder α)

namespace OrderedWalk

variable {α : Type u}

def ofTree (t : Tree α) : Order → OrderedWalk α
  | .preorder => preorder (.ofTree t)
  | .inorder => inorder (.ofTree t)
  | .postorder => postorder (.ofTree t)

def ofSpot (s : Spot α) : Order → OrderedWalk α
  | .preorder => preorder (.ofSpot s)
  | .inorder => inorder (.ofSpot s)
  | .postorder => postorder (.ofSpot s)

def next? : OrderedWalk α → Option (Spot α × OrderedWalk α)
  | preorder w => w.next?.map fun (s, w) => (s, preorder w)
  | inorder w => w.next?.map fun (s, w) => (s, inorder w)
  | postorder w => w.next?.map fun (s, w) => (s, postorder w)

def work : OrderedWalk α → Nat
  | preorder w => w.work
  | inorder w => w.work
  | postorder w => w.work

instance : Walk (OrderedWalk α) (Spot α) where
  next? := next?
  work := work
  work_lt {w w' s} h := by
    cases w with
    | preorder w =>
      obtain ⟨⟨_, _⟩, hn, he⟩ := Option.map_eq_some_iff.1 h
      cases he
      exact Walk.work_lt (σ := Preorder α) hn
    | inorder w =>
      obtain ⟨⟨_, _⟩, hn, he⟩ := Option.map_eq_some_iff.1 h
      cases he
      exact Walk.work_lt (σ := Inorder α) hn
    | postorder w =>
      obtain ⟨⟨_, _⟩, hn, he⟩ := Option.map_eq_some_iff.1 h
      cases he
      exact Walk.work_lt (σ := Postorder α) hn

end OrderedWalk

def Tree.walkValues {α : Type u} (t : Tree α) (order : Order) : List α :=
  (Walk.toList (OrderedWalk.ofTree t order)).map Spot.value

/-- The values of a node and all below it in an order. -/
def Spot.walkValues {α : Type u} (s : Spot α) (order : Order) : List α :=
  (Walk.toList (OrderedWalk.ofSpot s order)).map Spot.value

end TreeWalk
